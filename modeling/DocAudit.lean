import DocAudit.Main
import DocAudit.Proofs.Reading.BlankLine
import DocAudit.Proofs.Reading.Order
import DocAudit.Proofs.Skeleton.Complete
import DocAudit.Proofs.Workspace.Recheck
import DocAudit.Proofs.Reading.AllowList
import DocAudit.Proofs.Reading.Properties
import DocAudit.Proofs.Reading.Appended
import DocAudit.Proofs.Source.Nesting
import DocAudit.Proofs.Source.WrittenHeader
import DocAudit.Proofs.Workspace.Check
import DocAudit.Proofs.Documentation.Written
import DocAudit.Proofs.Source.Code
import DocAudit.Proofs.Reading.Coverage
import DocAudit.Proofs.Reading.Ownership
import DocAudit.Proofs.Documentation.Attributes
import DocAudit.Proofs.Markup.Names
import DocAudit.Proofs.Workspace.Inheritance
import DocAudit.Proofs.CacheRun
import DocAudit.Proofs.Workspace.History
import DocAudit.Proofs.Source.RelationTargets
import DocAudit.Proofs.Documentation.Block
import DocAudit.Proofs.Finding.Elements
import DocAudit.Proofs.Finding.Evaluation
import DocAudit.Proofs.Skeleton.Content
import DocAudit.Proofs.Skeleton.ParameterName
import DocAudit.Proofs.Documentation.Entries
import DocAudit.Proofs.Workspace.Definition
import DocAudit.Proofs.Skeleton.Numbering
import DocAudit.Proofs.Source.SignatureLayout
import DocAudit.Proofs.Source.AttributeLayout
import DocAudit.Proofs.Inherited
import DocAudit.Proofs.Workspace.Refresh
import DocAudit.Proofs.Workspace.Sources
import DocAudit.Proofs.Source.HeaderParts
import DocAudit.Proofs.Source.HeaderCase
import DocAudit.Proofs.Source.Pieces
import DocAudit.Proofs.Source.Disjoint
import DocAudit.Proofs.Documentation.Restored
import DocAudit.Proofs.Documentation.Literal
import DocAudit.Proofs.Source.SignatureExtent
import DocAudit.Proofs.Source.Comment
