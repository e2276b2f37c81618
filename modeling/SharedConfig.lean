import SharedConfig.Store
import SharedConfig.Proofs.Merge.Places
import SharedConfig.Proofs.Run.Pairing
import SharedConfig.Proofs.Run.Selections
import SharedConfig.Proofs.Merge.Again
import SharedConfig.Proofs.Run.Repetition
import SharedConfig.Proofs.Run.Targets
import SharedConfig.Proofs.Form
import SharedConfig.Proofs.Form.Reading
import SharedConfig.Proofs.Decoding.Parts
import SharedConfig.Proofs.Form.Records
import SharedConfig.Proofs.Shadow
import SharedConfig.Proofs.Run.Generations
import SharedConfig.Proofs.Report
import SharedConfig.Proofs.Run.Edits
import SharedConfig.Proofs.Collection.Others
import SharedConfig.Proofs.Run.Names
import SharedConfig.Proofs.Run.Survival
import SharedConfig.Proofs.Store
import SharedConfig.Proofs.Run.Recovery
import SharedConfig.Proofs.Edit.Order
import SharedConfig.Proofs.Run.Order
import SharedConfig.Proofs.Value.Reading
import SharedConfig.Proofs.Document
import SharedConfig.Proofs.Canonical
import SharedConfig.Proofs.Merge.Canonical
import SharedConfig.Proofs.Form.Plain
import SharedConfig.Proofs.Run.Canonical
import SharedConfig.Proofs.Merge.Entities
import SharedConfig.Proofs.Decoding.Apart
import SharedConfig.Proofs.Record.Layout
import SharedConfig.Proofs.Record.Overlay
import SharedConfig.Proofs.Record.Echo
import SharedConfig.Proofs.Run.Selecting
import SharedConfig.Proofs.Edit.Access
import SharedConfig.Proofs.Edit.Making
import SharedConfig.Proofs.Run.Refused
import SharedConfig.Proofs.Collection.Listing
import SharedConfig.Proofs.Run.Overwriting
import SharedConfig.Proofs.Run.Variables
import SharedConfig.Proofs.Run.Features
import SharedConfig.Proofs.Edit.Pruning
import SharedConfig.Proofs.Dotted
import SharedConfig.Proofs.Merge.Strategies
import SharedConfig.Proofs.Mapping.Ordered
import SharedConfig.Proofs.Volume.Tree
