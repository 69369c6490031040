import Subraum.Lib.Run
import Subraum.Lib.ReplayWindow
import Subraum.Lib.BigEndian
import Subraum.Lib.U32
import Subraum.Lib.FifoNet
import Subraum.Crypto.Primitives
import Subraum.Crypto.Session
import Subraum.Crypto.AntiReplay
import Subraum.Crypto.RoomAudio
import Subraum.Keys.Coordinator
import Subraum.Keys.Invariant
import Subraum.Keys.Staging
import Subraum.Keys.Grace
import Subraum.Keys.Engine
import Subraum.Keys.Membership
import Subraum.Keys.JoinerSecrecy
import Subraum.Keys.Room
import Subraum.Keys.AuthorityStep
import Subraum.Keys.Leading
import Subraum.Keys.LateJoiner
import Subraum.Keys.Handover
import Subraum.Protocol
import Subraum.Server.HandleSocket
import Subraum.Server.Moves
import Subraum.Server.Registry
import Subraum.Server.Authenticity
import Subraum.Server.Rooms
import Subraum.Server.Views
import Subraum.Lib.SlidingWindow
import Subraum.Server.Sessions
import Subraum.Channels.Directory
import Subraum.Lib.BagNet
import Subraum.Channels.Invariant
import Subraum.Channels.Gossip
import Subraum.Crypto.Handshake
import Subraum.Links.Mesh
import Subraum.Desktop.Slot
import Subraum.Links.Answers
import Subraum.Signaling.Session
import Subraum.Signaling.Speaking
import Subraum.Signaling.StuckSpeaker
import Subraum.Lib.Settling
import Subraum.Channels.Settling
import Subraum.Lib.Json
import Subraum.Lib.Base64
import Subraum.DataChannel.Control
import Subraum.DataChannel.Frame
import Subraum.DataChannel.Sealed
import Subraum.DataChannel.FrameLimits
import Subraum.Desktop.Connect
import Subraum.Desktop.Control
import Subraum.Desktop.RawInput
import Subraum.Desktop.Ducking
import Subraum.Desktop.Transmit
import Subraum.Links.LinkState
import Subraum.Webview.Latch
import Subraum.Keys.Superseding
import Subraum.Links.Release
import Subraum.Crypto.Ring
import Subraum.Server.Cooldowns
import Subraum.Desktop.AuthGate
import Subraum.Desktop.Snapshots
import Subraum.Server.Lifetimes
import Subraum.Links.Halves
import Subraum.Links.Offers
import Subraum.Links.Glare
import Subraum.Roster.Loop
import Subraum.Roster.Agreement
import Subraum.Roster.Locks
import Subraum.Lib.Cut
import Subraum.Links.Rejected
import Subraum.Signaling.Url
import Subraum.Signaling.Pin
import Subraum.Lib.IpAddr
import Subraum.Server.ClientIp
import Subraum.Server.RateLimiter
import Subraum.Server.Rekeys
import Subraum.Lib.Log
import Subraum.Roster.Watchdog
import Subraum.Lib.Interpolation
import Subraum.Audio.Resampler
import Subraum.Lib.Trim
import Subraum.Lib.Folding
import Subraum.Lib.JsStr
import Subraum.Webview.Channels
import Subraum.Lib.WebUrl
import Subraum.Webview.Links
import Subraum.Crypto.Transcript
import Subraum.Desktop.Chords
import Subraum.Lib.Cyclic
import Subraum.Webview.Cycle
import Subraum.Lib.JsNumber
import Subraum.Webview.Updates
import Subraum.Lib.CappedQueue
import Subraum.Audio.Cues
import Subraum.Lib.Rounds
import Subraum.Server.Changelog
import Subraum.Server.Outline
import Subraum.Lib.Utf8
import Subraum.DataChannel.Delivery
import Subraum.Server.Texts
import Subraum.Server.Admission
import Subraum.Serverless.Codes
import Subraum.Serverless.Chat
import Subraum.Lib.Blocks
import Subraum.Audio.Dsp
import Subraum.Audio.Capture
import Subraum.Audio.Radio
import Subraum.Audio.Mixer
import Subraum.Audio.Bus
import Subraum.Webview.ShareLinks
import Subraum.Server.Invites
import Subraum.Webview.Joining
import Subraum.Signaling.Reconnect
import Subraum.Desktop.Rigs
