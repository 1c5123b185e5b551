import FlipperZero.Lib.Machine
import FlipperZero.Rtos.ThreadFlags
import FlipperZero.Mlib.Containers
import FlipperZero.Record.Basic
import FlipperZero.Record.Invariant
import FlipperZero.Record.WakeUp
import FlipperZero.Record.Handles
import FlipperZero.InternalStorage.Basic
import FlipperZero.InternalStorage.Calls
import FlipperZero.Irda.CommonDecoder
import FlipperZero.Irda.Protocols
import FlipperZero.Irda.Frames
import FlipperZero.Irda.Recognition
import FlipperZero.Irda.Waveform
import FlipperZero.Irda.Transmission
import FlipperZero.Irda.NecAgreement
import FlipperZero.Lib.OpenDrain
import FlipperZero.Lib.TrieSearch
import FlipperZero.OneWire.Rom
import FlipperZero.OneWire.Bus
import FlipperZero.OneWire.Search
import FlipperZero.OneWire.Pass
import FlipperZero.OneWire.Call
import FlipperZero.OneWire.Enumeration
import FlipperZero.OneWire.TargetSearch
import FlipperZero.OneWire.Emulation
import FlipperZero.LfRfid.ProtocolEmMarin
import FlipperZero.LfRfid.EmMarinFrame
import FlipperZero.LfRfid.EmMarinSplice
import FlipperZero.LfRfid.EmMarinAir
import FlipperZero.Lib.Leads
import FlipperZero.LfRfid.EmMarinPhase
import FlipperZero.LfRfid.EmMarinReads
import FlipperZero.LfRfid.PulseJoiner
import FlipperZero.Input.Debounce
import FlipperZero.Input.Task
import FlipperZero.Input.Events
import FlipperZero.AppLoader.Basic
import FlipperZero.AppLoader.Shape
import FlipperZero.AppLoader.Insomnia
import FlipperZero.AppLoader.Isolation
import FlipperZero.SdFilesystem.FatFs
import FlipperZero.SdFilesystem.Basic
import FlipperZero.SdFilesystem.Moves
import FlipperZero.SdFilesystem.Isolation
import FlipperZero.SdFilesystem.Conservation
import FlipperZero.Gui.ViewDispatcher
import FlipperZero.Gui.Deadlock
import FlipperZero.IButton.PulseSequencer
import FlipperZero.IButton.Cyfral
import FlipperZero.IButton.CyfralReads
import FlipperZero.IButton.Metakom
import FlipperZero.IButton.MetakomPhase
import FlipperZero.IButton.MetakomReads
import FlipperZero.Mlib.BPTree
import FlipperZero.Cli.Basic
import FlipperZero.Cli.Lifetime
import FlipperZero.Furi.ValueMutex
import FlipperZero.Furi.ValueBracket
import FlipperZero.Notification.Basic
import FlipperZero.Notification.Semantics
import FlipperZero.Lib.Loop
import FlipperZero.SdFilesystem.DirRead
import FlipperZero.Gui.FileSelect
import FlipperZero.Archive.Filenames
import FlipperZero.SdFilesystem.App
import FlipperZero.SdFilesystem.Screen
import FlipperZero.SdFilesystem.EventLoop
import FlipperZero.SdFilesystem.Requests
import FlipperZero.SdFilesystem.Matching
import FlipperZero.Gui.Navigation
import FlipperZero.Firmware.Gpio
import FlipperZero.Firmware.OneWireMaster
import FlipperZero.Firmware.KeyReader
import FlipperZero.Firmware.KeyWriter
import FlipperZero.Firmware.KeyWriterSession
import FlipperZero.Firmware.OneWireSlave
import FlipperZero.Nfc.EmvDecoder
import FlipperZero.Nfc.EmvBounds
import FlipperZero.LfRfid.HidAir
import FlipperZero.LfRfid.HidCodec
import FlipperZero.LfRfid.HidFrame
import FlipperZero.LfRfid.HidReads
import FlipperZero.Firmware.OsSleep
import FlipperZero.Irda.Endings
import FlipperZero.Nfc.ReadRecords
import FlipperZero.Irda.Handler
import FlipperZero.MenuService.Basic
import FlipperZero.MenuService.Drawing
import FlipperZero.SdFilesystem.LockOrder
import FlipperZero.Gui.Service
import FlipperZero.IButton.SceneStack
import FlipperZero.IButton.TmCommand
import FlipperZero.IButton.NoInterference
import FlipperZero.IButton.SceneNavigation
import FlipperZero.Firmware.Vcp
import FlipperZero.Firmware.VcpServed
import FlipperZero.Input.Edges
import FlipperZero.LfRfid.RfidWriter
import FlipperZero.LfRfid.T5577
import FlipperZero.LfRfid.T5577Reads
import FlipperZero.Lib.Crc
import FlipperZero.OneWire.DeviceCrc
import FlipperZero.IButton.PulseRuns
import FlipperZero.Lib.CString
import FlipperZero.IButton.KeyFile
import FlipperZero.IButton.KeyLoad
import FlipperZero.IButton.KeySave
import FlipperZero.IButton.TmParser
import FlipperZero.SdFilesystem.DirContent
import FlipperZero.Gui.FileList
import FlipperZero.Gui.FileLines
import FlipperZero.Gui.FileChoice
import FlipperZero.Gui.FileNames
import FlipperZero.Gui.Submenu
import FlipperZero.Gui.ByteInput
import FlipperZero.Gui.ByteEntry
import FlipperZero.MenuService.Navigation
import FlipperZero.Notification.Backlight
import FlipperZero.Lib.ByteImage
import FlipperZero.InternalStorage.Keys
import FlipperZero.Dolphin.State
import FlipperZero.Nfc.Pdol
import FlipperZero.Nfc.WorkerLife
import FlipperZero.Firmware.GpioInit
import FlipperZero.InternalStorage.Device
import FlipperZero.Cli.Help
import FlipperZero.Irda.SamsungSoundness
import FlipperZero.Irda.Histories
import FlipperZero.Irda.BrokenAlternation
import FlipperZero.Gui.Popup
import FlipperZero.Firmware.Cc1101
import FlipperZero.Archive.Browser
import FlipperZero.Archive.ListNavigation
import FlipperZero.Archive.Paths
import FlipperZero.Archive.Teardown
import FlipperZero.Irda.Teardown
import FlipperZero.Cli.LineEditing
import FlipperZero.Lib.BitNumber
import FlipperZero.Accessor.Wiegand
import FlipperZero.Dolphin.SceneThread
import FlipperZero.Dolphin.LockHandler
import FlipperZero.Power.LowBattery
import FlipperZero.IButton.Editors
import FlipperZero.Firmware.I2c
import FlipperZero.Firmware.Cc1101Spi
import FlipperZero.Lib.MString
import FlipperZero.Irda.TxCommand
import FlipperZero.LfRfid.ProtocolIndala40134
import FlipperZero.LfRfid.DecoderIndala
import FlipperZero.LfRfid.IndalaCodec
import FlipperZero.IButton.KeyIdentity
import FlipperZero.Lib.CBuffer
import FlipperZero.Gui.TextInput
import FlipperZero.Gui.TextEntry
import FlipperZero.LfRfid.RfidTimerEmulator
import FlipperZero.LfRfid.EmulatorRestart
import FlipperZero.LfRfid.EmulatorWaveform
import FlipperZero.Firmware.Bq27220
import FlipperZero.Firmware.Bq27220Profile
import FlipperZero.Lib.Decimal
import FlipperZero.Firmware.SubghzRadio
import FlipperZero.SubGhz.Carrier
import FlipperZero.Irda.DecoderMemory
import FlipperZero.Irda.MemoryBounds
import FlipperZero.OneWire.Crc16
import FlipperZero.Gui.Layers
import FlipperZero.Lib.Monitor
import FlipperZero.Furi.PubSub
import FlipperZero.Furi.StdGlue
import FlipperZero.Firmware.InterruptManager
import FlipperZero.LfRfid.App
import FlipperZero.Lib.Listener
import FlipperZero.IButton.CyfralSound
import FlipperZero.IButton.MetakomSound
import FlipperZero.SdCardTest.HashBenchmark
import FlipperZero.Firmware.Spi
import FlipperZero.SubGhz.Views
import FlipperZero.SubGhz.App
import FlipperZero.LfRfid.RfidReader
import FlipperZero.Lib.BoundedStream
import FlipperZero.Firmware.VcpReceive
import FlipperZero.Cli.Console
import FlipperZero.Irda.NecWaveform
import FlipperZero.Irda.Capture
import FlipperZero.Irda.App
import FlipperZero.Dolphin.Scene
import FlipperZero.Dolphin.SceneRuns
