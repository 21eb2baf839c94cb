import LiveMarkup.Document.Rendered
import LiveMarkup.Registry
import LiveMarkup.Selector
import LiveMarkup.Proofs.Holds
import LiveMarkup.Proofs.Building
import LiveMarkup.Proofs.Removing
import LiveMarkup.Proofs.Changing
import LiveMarkup.Proofs.Places
import LiveMarkup.Proofs.PlainEdits
import LiveMarkup.Proofs.Shows
import LiveMarkup.Proofs.Editing
import LiveMarkup.Proofs.Applying
import LiveMarkup.Proofs.Reachable
import LiveMarkup.Proofs.Consistency
import LiveMarkup.Proofs.Refinement
import LiveMarkup.Proofs.Differences
import LiveMarkup.Proofs.Walk
import LiveMarkup.Proofs.Convergence
import LiveMarkup.Proofs.EditText
import LiveMarkup.Proofs.MarkupNames
import LiveMarkup.Proofs.MarkupText
import LiveMarkup.Proofs.Layout
import LiveMarkup.Proofs.Canonical
import LiveMarkup.Proofs.LegalNames
import LiveMarkup.Proofs.JoinedTexts
import LiveMarkup.Proofs.Renaming
import LiveMarkup.Proofs.Replicas
import LiveMarkup.Proofs.Replay
import LiveMarkup.Proofs.SlotHistory
import LiveMarkup.Proofs.StoreHistory
import LiveMarkup.Proofs.Sessions
import LiveMarkup.Proofs.Handles
import LiveMarkup.Proofs.Following
import LiveMarkup.Proofs.Lasting
import LiveMarkup.Proofs.Mirroring
import LiveMarkup.Proofs.Meeting
import LiveMarkup.Proofs.FreshHandles
import LiveMarkup.Proofs.Grammar
import LiveMarkup.Proofs.References
import LiveMarkup.Proofs.Scanning
import LiveMarkup.Proofs.ReadingOn
import LiveMarkup.Proofs.Renewing
import LiveMarkup.Proofs.KeptHandles
import LiveMarkup.Proofs.Described
import LiveMarkup.Proofs.WordNumbers
import LiveMarkup.Proofs.EditRoundTrip
import LiveMarkup.Proofs.Accepting
import LiveMarkup.Proofs.Descriptions
import LiveMarkup.Proofs.KeptRows
import LiveMarkup.Proofs.StreamEdits
import LiveMarkup.Proofs.SilentUpdates
import LiveMarkup.Proofs.KeyOrder
import LiveMarkup.Proofs.Resolving
import LiveMarkup.Proofs.Filling
import LiveMarkup.Proofs.Unfolding
import LiveMarkup.Proofs.RenderOutcomes
import LiveMarkup.Proofs.TemplateScopes
import LiveMarkup.Proofs.AnyOrder
import LiveMarkup.Proofs.InPlace
import LiveMarkup.Proofs.Pointwise
import LiveMarkup.Proofs.Redelivery
import LiveMarkup.Proofs.Untouched
import LiveMarkup.Proofs.FlatTrees
import LiveMarkup.Proofs.LaterEdits
import LiveMarkup.Proofs.DiffShape
import LiveMarkup.Proofs.Fingerprints
import LiveMarkup.Proofs.Asides
import LiveMarkup.Proofs.CharacterReferences
import LiveMarkup.Proofs.Positions
import LiveMarkup.Proofs.TrimmedTexts
import LiveMarkup.Proofs.ReadableNames
import LiveMarkup.Proofs.RecursivePrint
import LiveMarkup.Proofs.ReadingBytes
import LiveMarkup.Proofs.Selecting
