import Dotenv.Log.Edit
import Dotenv.Proofs.Edit.Locality
import Dotenv.Proofs.Edit.NewHeader
import Dotenv.Proofs.Edit.Survival
import Dotenv.Proofs.Expression.Shape
import Dotenv.Proofs.Expression.Strict
import Dotenv.Proofs.Reading.Attachment
import Dotenv.Proofs.Reading.Bare
import Dotenv.Proofs.Reading.Canonical
import Dotenv.Proofs.Reading.Carets
import Dotenv.Proofs.Reading.Literals
import Dotenv.Proofs.Reading.Places
import Dotenv.Proofs.Resolution.Enumerated
import Dotenv.Proofs.Resolution.Exchange
import Dotenv.Proofs.Resolution.FailFast
import Dotenv.Proofs.Resolution.Fatal
import Dotenv.Proofs.Resolution.Logs
import Dotenv.Proofs.Resolution.Plain
import Dotenv.Proofs.Resolution.Reimported
import Dotenv.Proofs.Resolution.Unread
import Dotenv.Proofs.Resolution.Validity
import Dotenv.Proofs.Schema.Issues
import Dotenv.Proofs.Secret.Caching
import Dotenv.Proofs.Secret.Interleaving
import Dotenv.Proofs.Secret.Isolation
import Dotenv.Proofs.Template.Defaults
