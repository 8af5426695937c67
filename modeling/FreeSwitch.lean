import FreeSwitch.Acl.Ipv6
import FreeSwitch.Acl.LongestPrefix
import FreeSwitch.Acl.NetworkList
import FreeSwitch.Base64
import FreeSwitch.Buffer.Basic
import FreeSwitch.Buffer.Fifo
import FreeSwitch.Buffer.Limit
import FreeSwitch.Buffer.Slide
import FreeSwitch.Channel.DigitsDialed
import FreeSwitch.Channel.Dtmf
import FreeSwitch.Channel.Hangup
import FreeSwitch.Channel.StateHandlers
import FreeSwitch.Conference.Mix
import FreeSwitch.Dialplan.Flat
import FreeSwitch.Dialplan.Substitution
import FreeSwitch.Distributor.Exceptions
import FreeSwitch.Distributor.FindNext
import FreeSwitch.Esl.Packets
import FreeSwitch.Event.Chain
import FreeSwitch.Event.Consistent
import FreeSwitch.Event.CoreUrlEncode
import FreeSwitch.Event.Dup
import FreeSwitch.Event.Edits
import FreeSwitch.Event.Faithful
import FreeSwitch.Event.Headers
import FreeSwitch.Event.Json
import FreeSwitch.Event.QueryString
import FreeSwitch.Event.Serialize
import FreeSwitch.Event.Stored
import FreeSwitch.Event.Unique
import FreeSwitch.Event.UrlDecode
import FreeSwitch.Expand.Buffer
import FreeSwitch.Expand.Channel
import FreeSwitch.Expand.Headers
import FreeSwitch.Expand.Items
import FreeSwitch.Expand.Substring
import FreeSwitch.Expand.Tokens
import FreeSwitch.HashTable.DeleteExactly
import FreeSwitch.HashTable.Refines
import FreeSwitch.HashTable.Table
import FreeSwitch.Ivr.Bindings
import FreeSwitch.Ivr.Mutex
import FreeSwitch.JitterBuffer.Calls
import FreeSwitch.JitterBuffer.Effects
import FreeSwitch.JitterBuffer.FrameLen
import FreeSwitch.JitterBuffer.Frames
import FreeSwitch.JitterBuffer.Index
import FreeSwitch.JitterBuffer.Occupancy
import FreeSwitch.JitterBuffer.SortNodes
import FreeSwitch.JitterBuffer.Store
import FreeSwitch.Lib.BottomUp
import FreeSwitch.Lib.Bounded
import FreeSwitch.Lib.Buckets
import FreeSwitch.Lib.Budgets
import FreeSwitch.Lib.Bytes
import FreeSwitch.Lib.CString
import FreeSwitch.Lib.Checked
import FreeSwitch.Lib.DoublyLinked
import FreeSwitch.Lib.FirstMax
import FreeSwitch.Lib.Inet
import FreeSwitch.Lib.Json
import FreeSwitch.Lib.Pool
import FreeSwitch.Lib.Run
import FreeSwitch.Lib.TextMemory
import FreeSwitch.Msrp.FindDelim
import FreeSwitch.Msrp.HeaderValue
import FreeSwitch.Msrp.PerformSend
import FreeSwitch.Port.Allocator
import FreeSwitch.Port.Checks
import FreeSwitch.Port.Free
import FreeSwitch.Port.Sound
import FreeSwitch.Prefix.BitTrie
import FreeSwitch.Ptt.EndOfStream
import FreeSwitch.Ptt.Frames
import FreeSwitch.Ptt.QueryJson
import FreeSwitch.Resample.MuxChannels
import FreeSwitch.Rtcp.InOrder
import FreeSwitch.Rtcp.Receive
import FreeSwitch.Rtcp.Stats
import FreeSwitch.Rtcp.Tmmbx
import FreeSwitch.Say.English
import FreeSwitch.Separate.CleanUri
import FreeSwitch.Separate.RoundTrip
import FreeSwitch.Stun.Length
import FreeSwitch.Stun.Packet
import FreeSwitch.Stun.Parse
import FreeSwitch.Stun.RoundTrip
import FreeSwitch.Utils.AmpEncode
import FreeSwitch.Utils.FramePool
import FreeSwitch.Utils.Replace
import FreeSwitch.Utils.Schedule
import FreeSwitch.Utils.ShellQuote
import FreeSwitch.Xml.DateTimeCheck
import FreeSwitch.Xml.ExpandVars
import FreeSwitch.Xml.Mixed
import FreeSwitch.Xml.ToXml
import FreeSwitch.Xml.UserCache
