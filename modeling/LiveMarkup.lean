import LiveMarkup.Event.Known
import LiveMarkup.Template.Skeleton
import LiveMarkup.Template.Inspect
import LiveMarkup.Script.Run
import LiveMarkup.Proofs.Component.Bind
import LiveMarkup.Proofs.Component.Bound
import LiveMarkup.Proofs.Component.Create
import LiveMarkup.Proofs.Component.Destroy
import LiveMarkup.Proofs.Component.Faithful
import LiveMarkup.Proofs.Component.Mount
import LiveMarkup.Proofs.Component.Disputed
import LiveMarkup.Proofs.Markup.Break
import LiveMarkup.Proofs.Template.AttributeNames
import LiveMarkup.Proofs.Component.Rollback
import LiveMarkup.Proofs.Component.Shared
import LiveMarkup.Proofs.Component.Slots
import LiveMarkup.Proofs.Document.Operations
import LiveMarkup.Proofs.Template.Printed
import LiveMarkup.Proofs.Component.Hydrate
import LiveMarkup.Proofs.Component.Isolated
import LiveMarkup.Proofs.Component.Agreement
import LiveMarkup.Proofs.Component.Told
import LiveMarkup.Proofs.Component.Delivered
import LiveMarkup.Proofs.Component.Released
import LiveMarkup.Proofs.Component.Failing
import LiveMarkup.Proofs.Component.Subscribers
import LiveMarkup.Proofs.Component.Balanced
import LiveMarkup.Proofs.Document.Moves
import LiveMarkup.Proofs.Component.Declared
import LiveMarkup.Proofs.Component.Backends
import LiveMarkup.Proofs.Event.Chronicle
import LiveMarkup.Proofs.Template.Classified
import LiveMarkup.Proofs.Component.Displaced
import LiveMarkup.Proofs.Markup.Cursor
