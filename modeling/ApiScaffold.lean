import ApiScaffold.Main
import ApiScaffold.Proofs.Splice
import ApiScaffold.Proofs.TypeScript.Spans
import ApiScaffold.Proofs.Reconcile
import ApiScaffold.Proofs.Compile.Faults
import ApiScaffold.Proofs.Draft.Merge
import ApiScaffold.Proofs.Compile.Coherence
import ApiScaffold.Proofs.TypeScript.Balance
import ApiScaffold.Proofs.TypeScript.Scan
import ApiScaffold.Proofs.TypeScript.Declaration
import ApiScaffold.Proofs.TypeScript.MethodBody
import ApiScaffold.Proofs.TypeScript.MethodText
import ApiScaffold.Proofs.TypeScript.Layout
import ApiScaffold.Proofs.TypeScript.HandEdit
import ApiScaffold.Proofs.FileTree
import ApiScaffold.Proofs.Text.Split
import ApiScaffold.Proofs.Naming
import ApiScaffold.Proofs.Service.Rendering
import ApiScaffold.Proofs.Service.Upkeep
import ApiScaffold.Proofs.Service.History
import ApiScaffold.Proofs.Compile.Merging
import ApiScaffold.Proofs.Store
import ApiScaffold.Proofs.Compile.Scheme
import ApiScaffold.Proofs.Draft.Settle
import ApiScaffold.Proofs.Compile.Repeat
import ApiScaffold.Proofs.Compile.Agreement
import ApiScaffold.Proofs.Compile.Transfer
import ApiScaffold.Proofs.Compile.Joined
import ApiScaffold.Proofs.Compile.Reordered
import ApiScaffold.Proofs.FileTree.Child
import ApiScaffold.Proofs.FileTree.Frame
import ApiScaffold.Proofs.Project.Attempts
import ApiScaffold.Proofs.Project.Frame
import ApiScaffold.Proofs.Compile.Fresh
import ApiScaffold.Proofs.Project.Order
import ApiScaffold.Proofs.TypeScript.ImportedNames
import ApiScaffold.Proofs.Service.Again
import ApiScaffold.Proofs.Project.Again
import ApiScaffold.Proofs.Compile.Misshapen
import ApiScaffold.Proofs.Compile.Announced
import ApiScaffold.Proofs.TypeScript.Pairs
import ApiScaffold.Proofs.TypeScript.Splits
import ApiScaffold.Proofs.TypeScript.Tiling
import ApiScaffold.Proofs.Compile.ImportedModels
import ApiScaffold.Proofs.Service.ReadBack
import ApiScaffold.Proofs.TypeScript.Outline
import ApiScaffold.Proofs.TypeScript.Dyck
import ApiScaffold.Proofs.TypeScript.Offsets
import ApiScaffold.Proofs.TypeScript.LexicalPieces
import ApiScaffold.Proofs.TypeScript.Breaks
import ApiScaffold.Proofs.TypeScript.Reports
import ApiScaffold.Proofs.TypeScript.Decorators
import ApiScaffold.Proofs.TypeScript.DeclaredMethod
import ApiScaffold.Proofs.TypeScript.DeclaredProperty
import ApiScaffold.Proofs.TypeScript.DeclaredClass
import ApiScaffold.Proofs.TypeScript.InsertionPoint
import ApiScaffold.Proofs.Service.Declared
import ApiScaffold.Proofs.Text.Replace
import ApiScaffold.Proofs.TypeScript.SelfContained
import ApiScaffold.Proofs.Render.Phrase
import ApiScaffold.Proofs.Render.ModelFile
import ApiScaffold.Proofs.TypeScript.TemplateLiteral
import ApiScaffold.Proofs.TypeScript.BehindComment
import ApiScaffold.Proofs.TypeScript.ImportGroups
import ApiScaffold.Proofs.TypeScript.KnownImports
import ApiScaffold.Proofs.Service.InsertedImports
import ApiScaffold.Proofs.Compile.Origins
import ApiScaffold.Proofs.Controller.Routes
import ApiScaffold.Proofs.Controller.ReadBack
import ApiScaffold.Proofs.Render.BoundNames
import ApiScaffold.Proofs.Render.ModuleSpecifiers
import ApiScaffold.Proofs.TypeScript.WrittenClass
import ApiScaffold.Proofs.Controller.Rendering
import ApiScaffold.Proofs.Resource.Objections
import ApiScaffold.Proofs.Compile.CompiledModels
import ApiScaffold.Proofs.Draft.PropertyType
import ApiScaffold.Proofs.Splice.Insertion
import ApiScaffold.Proofs.Splice.Pieces
import ApiScaffold.Proofs.Text.LineEnds
import ApiScaffold.Proofs.Service.KeptBytes
import ApiScaffold.Proofs.TypeScript.StringLiteral
import ApiScaffold.Proofs.Controller.RouteLiterals
import ApiScaffold.Proofs.Document.JsonString
import ApiScaffold.Proofs.Draft.LiteralUnion
import ApiScaffold.Proofs.Reference.Pointer
import ApiScaffold.Proofs.Reference.Chain
import ApiScaffold.Proofs.Resource.Laws
import ApiScaffold.Proofs.Splice.FrontToBack
import ApiScaffold.Proofs.Naming.Casing
import ApiScaffold.Proofs.Naming.Singular
import ApiScaffold.Proofs.Naming.ResourceNames
