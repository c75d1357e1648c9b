import DefLoad.Decimal.Numeral
import DefLoad.Kdl.Document
import DefLoad.Kdl.Writer
import DefLoad.Node.Path
import DefLoad.Selector.Reader
import DefLoad.Selector.Select
import DefLoad.Config
import DefLoad.Master
import DefLoad.Patch
import DefLoad.Arsenal.Catalog
import DefLoad.Arsenal.Parsers
import DefLoad.Bindings
import DefLoad.Main
import DefLoad.Session.Finish
import DefLoad.Proofs.Lineage
import DefLoad.Proofs.Members
import DefLoad.Proofs.Merge
import DefLoad.Proofs.NearestDefinition
import DefLoad.Proofs.Owners
import DefLoad.Proofs.Reload
import DefLoad.Proofs.Resolution
import DefLoad.Proofs.SessionRun
import DefLoad.Proofs.StoredFields
import DefLoad.Proofs.Subtypes
import DefLoad.Proofs.DatabaseIndex
import DefLoad.Proofs.StoreRun
import DefLoad.Proofs.Adding
import DefLoad.Proofs.Layers
import DefLoad.Proofs.Accounting
import DefLoad.Proofs.PutBack
import DefLoad.Proofs.PlainValues
import DefLoad.Proofs.TypeSafety
import DefLoad.Proofs.DocumentOrder
import DefLoad.Proofs.Selection
import DefLoad.Proofs.Spelling
import DefLoad.Proofs.WriteRead
import DefLoad.Proofs.Formatting
import DefLoad.Proofs.References
import DefLoad.Proofs.ReferenceReading
import DefLoad.Proofs.Referents
import DefLoad.Proofs.Dangling
import DefLoad.Proofs.Revision
import DefLoad.Proofs.PatchBatch
import DefLoad.Proofs.FreshLoad
import DefLoad.Proofs.ReloadFrame
import DefLoad.Proofs.MergedChildren
import DefLoad.Proofs.Rearrangement
import DefLoad.Proofs.Removal
import DefLoad.Proofs.InheritedAttributes
import DefLoad.Proofs.Lookups
import DefLoad.Proofs.Registration
import DefLoad.Proofs.QualifiedNames
import DefLoad.Proofs.SelectorCursor
import DefLoad.Proofs.Conversion
import DefLoad.Proofs.Accumulation
import DefLoad.Proofs.MapFilling
import DefLoad.Proofs.LateSources
import DefLoad.Proofs.Callbacks
import DefLoad.Proofs.RepeatedProperties
import DefLoad.Proofs.StandardTypes
import DefLoad.Proofs.Integers
import DefLoad.Proofs.BaseSearch
import DefLoad.Proofs.Construction
