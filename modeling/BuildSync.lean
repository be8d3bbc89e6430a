import BuildSync.Aggregate
import BuildSync.Annotation
import BuildSync.Build.Call
import BuildSync.Build.Contents
import BuildSync.Build.Defect
import BuildSync.Build.Descriptor
import BuildSync.Build.Layout
import BuildSync.Build.Literal
import BuildSync.Build.Rule
import BuildSync.Build.Token
import BuildSync.CommandLine.Exit
import BuildSync.CommandLine.Request
import BuildSync.Dependency
import BuildSync.Ignore.Glob
import BuildSync.Ignore.Rules
import BuildSync.Import
import BuildSync.Json
import BuildSync.Label
import BuildSync.Main
import BuildSync.ModulePath
import BuildSync.Order
import BuildSync.Ownership
import BuildSync.Package
import BuildSync.Parser
import BuildSync.Path
import BuildSync.Problem
import BuildSync.Proofs.AnnotatedLines
import BuildSync.Proofs.Atomicity
import BuildSync.Proofs.Build.Ranges
import BuildSync.Proofs.Build.Setters
import BuildSync.Proofs.Build.Tiling
import BuildSync.Proofs.Commuting
import BuildSync.Proofs.Completeness
import BuildSync.Proofs.DependencyLists
import BuildSync.Proofs.DependencySets
import BuildSync.Proofs.Footprints
import BuildSync.Proofs.FreeNames
import BuildSync.Proofs.FileLabels
import BuildSync.Proofs.KeptDependencies
import BuildSync.Proofs.Labels
import BuildSync.Proofs.Libraries
import BuildSync.Proofs.Listings
import BuildSync.Proofs.ModuleNames
import BuildSync.Proofs.Order
import BuildSync.Proofs.Overlooking
import BuildSync.Proofs.PrintedRules
import BuildSync.Proofs.Pruning
import BuildSync.Proofs.QueryTerms
import BuildSync.Proofs.Questions
import BuildSync.Proofs.RepeatedRuns
import BuildSync.Proofs.Replanning
import BuildSync.Proofs.Rereading
import BuildSync.Proofs.Runs
import BuildSync.Proofs.Sessions
import BuildSync.Proofs.SettledAnnotations
import BuildSync.Proofs.SettledImports
import BuildSync.Proofs.SettledRules
import BuildSync.Proofs.SettledSources
import BuildSync.Proofs.Spellings
import BuildSync.Proofs.Successors
import BuildSync.Proofs.TypeScript.HeaderLines
import BuildSync.Proofs.TypeScript.ImportPlaces
import BuildSync.Proofs.TypeScript.LaidImports
import BuildSync.Proofs.StartPaths
import BuildSync.Query.Graph
import BuildSync.Query.Index
import BuildSync.Query.IndexFile
import BuildSync.Query.Key
import BuildSync.Resolution
import BuildSync.Scope
import BuildSync.Session
import BuildSync.SourceName
import BuildSync.Target
import BuildSync.Text.Blank
import BuildSync.Text.Cut
import BuildSync.Text.Edit
import BuildSync.Text.Span
import BuildSync.Tree
import BuildSync.TypeScript.Declaration
import BuildSync.TypeScript.Expression
import BuildSync.TypeScript.Function
import BuildSync.TypeScript.Grammar
import BuildSync.TypeScript.Header
import BuildSync.TypeScript.Imports
import BuildSync.TypeScript.Lexeme
import BuildSync.TypeScript.Markup
import BuildSync.TypeScript.Module
import BuildSync.TypeScript.Program
import BuildSync.TypeScript.Statement
import BuildSync.TypeScript.Types
import BuildSync.Update
import BuildSync.Walk
import BuildSync.Workspace
import BuildSync.Proofs.Build.Lexing
import BuildSync.Proofs.Build.Pieces
import BuildSync.Proofs.Build.Nesting
import BuildSync.Proofs.Build.Lists
import BuildSync.Proofs.Build.WrittenLists
import BuildSync.Proofs.Build.Reading
import BuildSync.Proofs.Build.Insertion
import BuildSync.Proofs.Build.RuleEdits
import BuildSync.Proofs.Build.FileEdits
import BuildSync.Proofs.Build.LoadedRules
import BuildSync.Proofs.Build.NewRules
import BuildSync.Proofs.Build.RoundTrip
import BuildSync.Proofs.Build.Frame
