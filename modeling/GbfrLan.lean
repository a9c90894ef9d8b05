import GbfrLan.Lib.OrdMap
import GbfrLan.Lib.Run
import GbfrLan.Lib.SeqSpace
import GbfrLan.Lib.Text
import GbfrLan.Lib.Position
import GbfrLan.Lib.ModifyFirst
import GbfrLan.Lib.Versioned
import GbfrLan.Json.Value
import GbfrLan.Json.Read
import GbfrLan.Json.Scan
import GbfrLan.Json.Weight
import GbfrLan.Json.Scanner
import GbfrLan.Party.Reliable
import GbfrLan.Party.Pairing
import GbfrLan.Party.Handle
import GbfrLan.Party.Pump
import GbfrLan.Party.Transport
import GbfrLan.Party.Shim
import GbfrLan.Party.Delivery
import GbfrLan.Party.Numbered
import GbfrLan.Party.Once
import GbfrLan.Party.BestEffort
import GbfrLan.Party.SendLedger
import GbfrLan.Party.Timers
import GbfrLan.Party.Wrap
import GbfrLan.Party.History
import GbfrLan.Party.Rejoin
import GbfrLan.Broker.App
import GbfrLan.Broker.Playfab
import GbfrLan.Broker.LobbyStore
import GbfrLan.Broker.Update
import GbfrLan.Broker.Leave
import GbfrLan.Broker.Membership
import GbfrLan.Broker.Party
import GbfrLan.Broker.Registration
import GbfrLan.Broker.Frame
import GbfrLan.Broker.Shape
import GbfrLan.Broker.Rows
import GbfrLan.Broker.MeshCap
import GbfrLan.Broker.Search
import GbfrLan.Broker.Ownership
import GbfrLan.Broker.UpdateLobby
import GbfrLan.Broker.Migration
import GbfrLan.Party.BrokerQueue
import GbfrLan.Party.PeerPoll
import GbfrLan.Playfab.Lobby
import GbfrLan.Playfab.Client
import GbfrLan.Playfab.Body
import GbfrLan.Playfab.Update
import GbfrLan.Playfab.Leaving
import GbfrLan.Party.Announce
import GbfrLan.Party.Waiting
import GbfrLan.Party.Boxes
import GbfrLan.Party.Registry
import GbfrLan.Party.Stranger
import GbfrLan.Lib.Bytes
import GbfrLan.Lib.Utf8
import GbfrLan.Party.Wire
import GbfrLan.Party.Broadcast
import GbfrLan.Playfab.Joining
import GbfrLan.Playfab.Copies
import GbfrLan.Playfab.Posting
import GbfrLan.Lib.WriteThrough
import GbfrLan.Playfab.Writing
import GbfrLan.Playfab.Batch
import GbfrLan.Party.Handover
import GbfrLan.Playfab.View
import GbfrLan.Playfab.Refresh
import GbfrLan.Playfab.Polling
import GbfrLan.Playfab.Machine
import GbfrLan.Playfab.Order
import GbfrLan.Json.Write
import GbfrLan.Json.Scanned
import GbfrLan.Json.Document
import GbfrLan.Json.DocumentScan
import GbfrLan.Json.Escape
import GbfrLan.Lib.Outcome
import GbfrLan.Lib.Compare
import GbfrLan.Lib.F64
import GbfrLan.Broker.LobbyFilter
import GbfrLan.Broker.FilterGrammar
import GbfrLan.Broker.FilterText
import GbfrLan.Broker.Sort
import GbfrLan.Broker.Find
import GbfrLan.Broker.FindRows
import GbfrLan.Json.ByteScanner
import GbfrLan.Json.BytePlace
import GbfrLan.Json.ByteString
import GbfrLan.Json.ByteSkip
import GbfrLan.Json.ByteSafe
import GbfrLan.Broker.FilterBytes
import GbfrLan.Playfab.Envelope
import GbfrLan.Playfab.Cut
import GbfrLan.Playfab.Bag
import GbfrLan.Playfab.Codec
import GbfrLan.Http.Request
import GbfrLan.Http.Half
import GbfrLan.Http.Framing
import GbfrLan.Playfab.Fidelity
import GbfrLan.Lib.Digits
import GbfrLan.Broker.MemberData
import GbfrLan.Playfab.MemberData
import GbfrLan.Playfab.Diff
import GbfrLan.Http.WebSocket
import GbfrLan.Broker.LeaderName
import GbfrLan.Party.Descriptor
import GbfrLan.Playfab.Getters
import GbfrLan.Lib.Walk
import GbfrLan.SteamHttp.Pe
import GbfrLan.SteamHttp.Patch
import GbfrLan.SteamHttp.Stub
import GbfrLan.SteamHttp.Url
import GbfrLan.Party.NetworkId
import GbfrLan.Party.Bounds
import GbfrLan.Party.Replay
import GbfrLan.Party.Recovery
import GbfrLan.Http.Response
import GbfrLan.Lib.Base64
import GbfrLan.Broker.Dispatch
import GbfrLan.Broker.Sessions
import GbfrLan.Playfab.OnWire
import GbfrLan.SteamHttp.Calls
import GbfrLan.SteamHttp.Listeners
import GbfrLan.Broker.Conns
import GbfrLan.Party.Discovery
import GbfrLan.Broker.Connection
import GbfrLan.Party.TaskWire
