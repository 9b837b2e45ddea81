import SystemBluetooth.Address.Basic
import SystemBluetooth.Address.Bounds
import SystemBluetooth.Address.Codecs
import SystemBluetooth.Bluedroid.Basic
import SystemBluetooth.Bluedroid.Enable
import SystemBluetooth.Bluedroid.Query
import SystemBluetooth.Bluedroid.Recovery
import SystemBluetooth.Bluedroid.Report
import SystemBluetooth.Bluedroid.Rfkill
import SystemBluetooth.Bluedroid.Rollback
import SystemBluetooth.Bluedroid.Search
import SystemBluetooth.Bluedroid.Sockets
import SystemBluetooth.Bluedroid.Startup
import SystemBluetooth.Brfpatch.Arguments
import SystemBluetooth.Brfpatch.Basic
import SystemBluetooth.Brfpatch.Chunks
import SystemBluetooth.Brfpatch.Cursor
import SystemBluetooth.Brfpatch.Disassembly
import SystemBluetooth.Brfpatch.Extension
import SystemBluetooth.Brfpatch.Grammar
import SystemBluetooth.Brfpatch.Language
import SystemBluetooth.Brfpatch.Payload
import SystemBluetooth.Brfpatch.Reading
import SystemBluetooth.Brfpatch.Records
import SystemBluetooth.Brfpatch.Safety
import SystemBluetooth.Brfpatch.Script
import SystemBluetooth.Brfpatch.Steps
import SystemBluetooth.Library.Arrivals
import SystemBluetooth.Library.Block
import SystemBluetooth.Library.Effect
import SystemBluetooth.Library.Getopt
import SystemBluetooth.Library.Groups
import SystemBluetooth.Library.LastOf
import SystemBluetooth.Library.LittleEndian
import SystemBluetooth.Library.Machine
import SystemBluetooth.Library.Memory
import SystemBluetooth.Library.Monitor
import SystemBluetooth.Library.Scan
import SystemBluetooth.Library.Session
import SystemBluetooth.Library.Threads
import SystemBluetooth.Patchram.Address
import SystemBluetooth.Patchram.Alarm
import SystemBluetooth.Patchram.Assembly
import SystemBluetooth.Patchram.Basic
import SystemBluetooth.Patchram.Carried
import SystemBluetooth.Patchram.Choice
import SystemBluetooth.Patchram.Chunking
import SystemBluetooth.Patchram.CommandLine
import SystemBluetooth.Patchram.Commands
import SystemBluetooth.Patchram.Dialogue
import SystemBluetooth.Patchram.Download
import SystemBluetooth.Patchram.Event
import SystemBluetooth.Patchram.Failures
import SystemBluetooth.Patchram.FileBytes
import SystemBluetooth.Patchram.Framing
import SystemBluetooth.Patchram.Handler
import SystemBluetooth.Patchram.Handover
import SystemBluetooth.Patchram.Options
import SystemBluetooth.Patchram.Pairing
import SystemBluetooth.Patchram.Rates
import SystemBluetooth.Patchram.Refusals
import SystemBluetooth.Patchram.Settings
import SystemBluetooth.Patchram.Speed
import SystemBluetooth.Patchram.Status
import SystemBluetooth.Patchram.Turns
import SystemBluetooth.Tools.Bttest
import SystemBluetooth.Tools.Pipetest
import SystemBluetooth.Tools.Shutdown
import SystemBluetooth.Tools.Socktest
