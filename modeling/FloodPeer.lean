import FloodPeer.Lib.Octets
import FloodPeer.Lib.StateLogic
import FloodPeer.Lib.SortedAssoc
import FloodPeer.Lib.Batcher
import FloodPeer.Lib.Runs
import FloodPeer.Lib.Chronicle
import FloodPeer.Genlist
import FloodPeer.Struct
import FloodPeer.World
import FloodPeer.Util
import FloodPeer.Abr
import FloodPeer.Encode
import FloodPeer.NetLib
import FloodPeer.Flood
import FloodPeer.Tlv
import FloodPeer.Main
import FloodPeer.Frames
import FloodPeer.Order
import FloodPeer.TreeMap
import FloodPeer.Lib.SearchTree
import FloodPeer.Checker
import FloodPeer.Linked
import FloodPeer.ListRep
import FloodPeer.Parser
import FloodPeer.Values
import FloodPeer.Encoders
import FloodPeer.RoundTrip
import FloodPeer.BigData
import FloodPeer.Lib.Keyed
import FloodPeer.Fragments
import FloodPeer.Delivery
import FloodPeer.Records
import FloodPeer.Moves
import FloodPeer.History
import FloodPeer.Sound
import FloodPeer.Selection
import FloodPeer.Hellos
import FloodPeer.Batching
import FloodPeer.Transmissions
import FloodPeer.Farewell
import FloodPeer.Directory
import FloodPeer.Reads
import FloodPeer.Lib.Schedule
import FloodPeer.Filing
import FloodPeer.Expiry
import FloodPeer.Recipients
import FloodPeer.Recency
import FloodPeer.Confusion
import FloodPeer.FirstRecipients
import FloodPeer.Flooding
import FloodPeer.Relay
import FloodPeer.Queueing
import FloodPeer.Sending
import FloodPeer.Backoff
import FloodPeer.Turn
import FloodPeer.Walk
import FloodPeer.Shortage
import FloodPeer.Inactive
import FloodPeer.Sweep
import FloodPeer.Advertisement
import FloodPeer.Deadlines
import FloodPeer.Pass
import FloodPeer.Speech
import FloodPeer.Network
import FloodPeer.Wording
import FloodPeer.Causes
import FloodPeer.Lib.Gossip
import FloodPeer.Refinement
import FloodPeer.Provenance
import FloodPeer.Termination
import FloodPeer.Disconnect
import FloodPeer.Epoch
import FloodPeer.Freshness
import FloodPeer.Actions
import FloodPeer.Ownership
import FloodPeer.Outbox
import FloodPeer.Joining
