import TestImpact.Main
import TestImpact.Proofs.Selection.Distance
import TestImpact.Proofs.Selection.Membership
import TestImpact.Proofs.Selection.Monotone
import TestImpact.Proofs.Analysis.Membership
import TestImpact.Proofs.Analysis.Monotone
import TestImpact.Proofs.Java.Header
import TestImpact.Proofs.Java.Imports
import TestImpact.Proofs.Java.TypeExpr
import TestImpact.Proofs.Java.TypeText
import TestImpact.Proofs.Selection.Dependency
import TestImpact.Proofs.Java.Nesting
import TestImpact.Proofs.Java.Syntax
import TestImpact.Proofs.Java.Modifiers
import TestImpact.Proofs.Java.Headers
import TestImpact.Proofs.Java.Signatures
import TestImpact.Proofs.Java.Roles
import TestImpact.Proofs.Java.Walk
import TestImpact.Proofs.Java.AngleBrackets
import TestImpact.Proofs.Java.Supertypes
import TestImpact.Proofs.Java.Parameters
import TestImpact.Proofs.Java.Printing
import TestImpact.Proofs.Java.UnitHeader
import TestImpact.Proofs.Java.CompilationUnit
import TestImpact.Proofs.Java.Acceptance
import TestImpact.Proofs.Java.TypePositions
import TestImpact.Proofs.Java.ClassFile
import TestImpact.Proofs.FileTree.Walk
import TestImpact.Proofs.SourceFiles
import TestImpact.Proofs.FileTree.Place
import TestImpact.Proofs.FoldedPath
import TestImpact.Proofs.MappedFolders
import TestImpact.Proofs.Selection.Settings
import TestImpact.Proofs.Analysis.Settings
import TestImpact.Proofs.Java.Steps
import TestImpact.Proofs.Java.Braces
import TestImpact.Proofs.Java.Literals
import TestImpact.Proofs.Java.Enclosures
import TestImpact.Proofs.Java.Indexed.Places
import TestImpact.Proofs.Java.Indexed.Tokens
import TestImpact.Proofs.Java.Indexed.Ranges
import TestImpact.Proofs.Java.Indexed.Declarations
import TestImpact.Proofs.Java.Indexed.TypeHeaders
import TestImpact.Proofs.Java.Indexed.Header
import TestImpact.Proofs.Java.Indexed.Members
import TestImpact.Proofs.Java.Indexed.References
import TestImpact.Proofs.Java.Indexed.Source
import TestImpact.Proofs.Selection.Resolution
import TestImpact.Proofs.MappedFiles
import TestImpact.Proofs.Glob.Spread
import TestImpact.Proofs.PathSpelling
import TestImpact.Proofs.FileTree.Listing
import TestImpact.Proofs.FileTree.Removal
import TestImpact.Proofs.Catalogue.Unreadable
import TestImpact.Proofs.Analysis.Unreadable
import TestImpact.Proofs.Changes.Course
import TestImpact.Proofs.Changes.Detection
import TestImpact.Proofs.Text.Parts
import TestImpact.Proofs.Text.Pieces
import TestImpact.Proofs.Changes.BaseRef
import TestImpact.Proofs.Catalogue.Records
import TestImpact.Proofs.Analysis.Impact
import TestImpact.Proofs.FileTree.PathOrder
import TestImpact.Proofs.Catalogue.Copies
import TestImpact.Proofs.Selection.Levels
import TestImpact.Proofs.Selection.Usage
import TestImpact.Proofs.Java.ArgumentLists
import TestImpact.Proofs.Java.SkippedBlocks
import TestImpact.Proofs.Changes.Listing
import TestImpact.Proofs.ModuleOfPath
import TestImpact.Proofs.FileTree.Topmost
import TestImpact.Proofs.Java.DeclaredNames
import TestImpact.Proofs.Selection.Implementation
import TestImpact.Proofs.Catalogue.Firsts
import TestImpact.Proofs.Selection.Naming
import TestImpact.Proofs.Java.DeclarationTree
import TestImpact.Proofs.Java.DeclaredPieces
import TestImpact.Proofs.Java.LegibleTexts
import TestImpact.Proofs.Java.MentionedNames
import TestImpact.Proofs.Java.AnnotationNames
