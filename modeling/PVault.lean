import PVault.Lib.Bytes
import PVault.Lib.Bump
import PVault.Lib.Reader
import PVault.Lib.Prog
import PVault.Lib.Digits
import PVault.Status
import PVault.Header
import PVault.Crypto
import PVault.Rotation
import PVault.Body
import PVault.Recovery
import PVault.Text
import PVault.Arena
import PVault.Model
import PVault.Stored
import PVault.Layout
import PVault.Edit
import PVault.Cbor
import PVault.CborCodec
import PVault.CborRead
import PVault.CborDecode
import PVault.CborRoundTrip
import PVault.Drift
import PVault.Rebuild
import PVault.Intact
import PVault.Files
import PVault.FileLogic
import PVault.Names
import PVault.Snapshot
import PVault.Change
import PVault.Publish
import PVault.Open
import PVault.Tamper
import PVault.Retention
import PVault.Sealed
import PVault.Prune
import PVault.Pinned
import PVault.Copies
import PVault.Find
import PVault.Lib.Par
import PVault.Clipboard
import PVault.Handoff
import PVault.Lib.Strtoul
import PVault.Lib.Utf8
import PVault.Lib.Shuffle
import PVault.Plan
import PVault.Save
import PVault.Locks
import PVault.Restore
import PVault.Create
import PVault.Store
import PVault.Atomic
import PVault.Crash
import PVault.Retry
import PVault.Regions
import PVault.Mutation
import PVault.OpenMemory
import PVault.Owner
import PVault.Display
import PVault.Config
import PVault.Csv
import PVault.Passwords
import PVault.Picker
import PVault.Rofi
import PVault.RecoveryFile
import PVault.Bystander
import PVault.RecoveryRotate
import PVault.Timeline
import PVault.Rewind
import PVault.Lib.Sessions
import PVault.Moves
import PVault.Turns
import PVault.Clients
import PVault.Updates
import PVault.Progress
import PVault.Lifetime
import PVault.Policy
