import Lattix.Lib.Base64
import Lattix.Lib.Utf8
import Lattix.Lib.RoundTrip
import Lattix.Lib.Runs
import Lattix.Lib.Transactions
import Lattix.Lib.Pages
import Lattix.Server.Readable
import Lattix.Server.Succession
import Lattix.Server.Failures
import Lattix.Server.Accounts
import Lattix.Client.Drafts
import Lattix.Client.Api
import Lattix.Client.Socket
import Lattix.Client.Header
import Lattix.Client.Logout
import Lattix.Client.OwnKeys
import Lattix.Client.Reload
import Lattix.Client.Pinning
import Lattix.Client.Once
import Lattix.Client.History
import Lattix.Client.Recovery
import Lattix.Wire.Binding
import Lattix.Crypto.Messages
import Lattix.Crypto.Files
import Lattix.Client.Transfers
import Lattix.Client.Uploads
import Lattix.Server.Sweeps
import Lattix.Server.Visibility
import Lattix.Crypto.Transcripts
import Lattix.Crypto.FileTranscripts
import Lattix.Lib.Html
import Lattix.Client.Links
import Lattix.Server.Disclosure
import Lattix.Server.RateLimit
import Lattix.Server.Search
import Lattix.Client.Spelling
import Lattix.Client.Share
import Lattix.Client.Vouched
import Lattix.Client.SignIn
import Lattix.Client.Qr.Layout
import Lattix.Server.Directory
import Lattix.Client.Images
import Lattix.Server.Lifetimes
import Lattix.Server.Delivery
import Lattix.Crypto.Delivery
