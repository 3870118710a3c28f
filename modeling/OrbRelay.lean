import OrbRelay.Library.Encoding
import OrbRelay.Library.Transition
import OrbRelay.Library.Protobuf
import OrbRelay.Library.Codec
import OrbRelay.Library.Json
import OrbRelay.Messages.AppData
import OrbRelay.Messages.Binding
import OrbRelay.Messages.OrbData
import OrbRelay.Messages.Announcements
import OrbRelay.Messages.Display
import OrbRelay.Client.Types
import OrbRelay.Client.FlumeReceiverStream
import OrbRelay.Client.Actor
import OrbRelay.Client.Calls
import OrbRelay.Client.Connection
import OrbRelay.Client.Moves
import OrbRelay.Client.Trail
import OrbRelay.Client.Books
import OrbRelay.Client.Link
import OrbRelay.Client.Attempts
import OrbRelay.Client.Stopping
import OrbRelay.Client.Handshake
import OrbRelay.Client.FirstFrame
import OrbRelay.Client.Outbound
import OrbRelay.Client.Registration
import OrbRelay.Client.FailedReplies
import OrbRelay.Client.Orphans
import OrbRelay.Client.Heartbeats
import OrbRelay.Client.Retries
import OrbRelay.Client.Traffic
import OrbRelay.Client.Acks
import OrbRelay.Client.Answers
import OrbRelay.Client.Inbound
import OrbRelay.Client.Network
import OrbRelay.Client.Resends
import OrbRelay.Client.Abandoned
import OrbRelay.Client.Replies
import OrbRelay.Client.Wire
import OrbRelay.Client.Deliveries
import OrbRelay.Client.AfterEnd
import OrbRelay.Client.Recovery
import OrbRelay.Client.Authentic
import OrbRelay.Client.Timers
import OrbRelay.TestUtils.TestServer
import OrbRelay.TestUtils.Relay
