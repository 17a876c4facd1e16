import EncedoChat.Lib.Bytes
import EncedoChat.Lib.OrdMap
import EncedoChat.Lib.KeyChain
import EncedoChat.Eh2.Header
import EncedoChat.Eh2.Skipped
import EncedoChat.Eh2.State
import EncedoChat.Eh2.Lemmas.Steps
import EncedoChat.Eh2.Ideal
import EncedoChat.Eh2.Transactional
import EncedoChat.Eh2.Lemmas.Chains
import EncedoChat.Eh2.Lemmas.Receiving
import EncedoChat.Eh2.Lemmas.Invariant
import EncedoChat.Eh2.Duplex
import EncedoChat.Eh2.Agreement
import EncedoChat.Group.SenderKey
import EncedoChat.Group.Session
import EncedoChat.Group.Send
import EncedoChat.Group.Lane
import EncedoChat.Group.Delivery
import EncedoChat.Group.Copy
import EncedoChat.Group.Opening
import EncedoChat.Group.Overtaking
import EncedoChat.Group.Manager
import EncedoChat.Group.Admission
import EncedoChat.Groups.Manager
import EncedoChat.Groups.Origins
import EncedoChat.Handshake.Wire
import EncedoChat.Handshake.Gate
import EncedoChat.Handshake.Agreement
import EncedoChat.Groups.Restore
import EncedoChat.Groups.Overlap
import EncedoChat.Groups.Layer
import EncedoChat.Groups.Minted
import EncedoChat.Groups.Counted
import EncedoChat.Core.Skipped
import EncedoChat.Core.Ratchet
import EncedoChat.Core.Equivalence
import EncedoChat.Room.Bookkeeping
import EncedoChat.Room.Chat
import EncedoChat.Room.Pair
import EncedoChat.Room.Holds
import EncedoChat.Room.Turns
import EncedoChat.Room.Shown
import EncedoChat.Xfer.Session
import EncedoChat.Xfer.Delivery
import EncedoChat.Xfer.Sending
import EncedoChat.Xfer.Receiving
import EncedoChat.Lib.Json
import EncedoChat.Network.Profile
import EncedoChat.Network.Registry
import EncedoChat.Network.Pinning
import EncedoChat.Relay.Node
import EncedoChat.Relay.Carried
import EncedoChat.Relay.Load
import EncedoChat.Relay.Share
import EncedoChat.Fput.Prefix
import EncedoChat.Enroll.Allowlist
import EncedoChat.Enroll.Requests
import EncedoChat.Enroll.History
import EncedoChat.Enroll.Admission
import EncedoChat.Enroll.Provider
import EncedoChat.Enroll.SignIn
import EncedoChat.Queue.Daemon
import EncedoChat.Queue.Kept
import EncedoChat.Queue.Once
import EncedoChat.File.Crypto
import EncedoChat.Presence.Rotation
import EncedoChat.SelfSession.Announce
import EncedoChat.SelfSession.Both
import EncedoChat.Inbox.Decoys
import EncedoChat.Lib.Bits
import EncedoChat.Lib.Horner
import EncedoChat.Lib.Utf16
import EncedoChat.Light.Acks
import EncedoChat.Light.Picks
import EncedoChat.Message.Frame
import EncedoChat.Message.Size
import EncedoChat.Migrate.Bundle
import EncedoChat.Migrate.Isolation
import EncedoChat.Presence.Held
import EncedoChat.Relay.Leaf
import EncedoChat.Book.Intact
import EncedoChat.Core.Bounds
import EncedoChat.Group.Atomic
import EncedoChat.Group.Attribution
import EncedoChat.Group.Insider
import EncedoChat.Invites.Store
import EncedoChat.Invites.Updates
import EncedoChat.Presence.Watched
import EncedoChat.Presence.Yielded
import EncedoChat.Queue.Paced
import EncedoChat.Lib.Writes
import EncedoChat.Qr.Matrix
import EncedoChat.Qr.Codewords
import EncedoChat.Qr.Decodes
import EncedoChat.Presence.Replay
import EncedoChat.Presence.Rotating
import EncedoChat.Inbox.Knock
import EncedoChat.Inbox.Surfaced
import EncedoChat.Relay.Registry
import EncedoChat.Relay.Frames
import EncedoChat.Relay.Seen
import EncedoChat.Migrate.Crash
import EncedoChat.Webm.Sound
import EncedoChat.Fput.Chunks
import EncedoChat.Descr.Records
import EncedoChat.Descr.Listed
import EncedoChat.Lib.Blank
import EncedoChat.Mentions.Close
import EncedoChat.Lib.Dyadic
import EncedoChat.Geoip.Ranges
import EncedoChat.Geoip.Ip
import EncedoChat.Geoip.Matcher
import EncedoChat.Core.Wire
import EncedoChat.Core.SenderKey
import EncedoChat.Lib.Slots
import EncedoChat.Core.Handles
import EncedoChat.Core.Adapters
import EncedoChat.Handshake.Establish
import EncedoChat.Room.Seam
import EncedoChat.Room.Convergence
import EncedoChat.Lib.JsonAccess
import EncedoChat.Lib.JsonBytes
import EncedoChat.Xfer.Codec
import EncedoChat.Xfer.Pieces
import EncedoChat.Lib.Points
import EncedoChat.Invites.Link
import EncedoChat.Envelope.Codec
import EncedoChat.Envelope.Again
import EncedoChat.Envelope.RoundTrip
import EncedoChat.Password.Meter
import EncedoChat.Stun.Binding
import EncedoChat.Radio.Timer
import EncedoChat.Lib.PosixPath
import EncedoChat.Lib.Replaced
import EncedoChat.Saved.Name
import EncedoChat.Saved.File
import EncedoChat.Lib.Utf8
import EncedoChat.Lib.JsonGarbled
import EncedoChat.Daemon.Lines
import EncedoChat.Hub.Room
import EncedoChat.Direct.Plane
import EncedoChat.Sealed.Stores
import EncedoChat.Nodes.Balance
import EncedoChat.Invites.Desk
import EncedoChat.Presence.Rendezvous
import EncedoChat.Eh2.Channel
import EncedoChat.Relay.Delivery
