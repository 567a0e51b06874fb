import MokyaLora.IpcRingCmd
import MokyaLora.FlashRelease
import MokyaLora.CompositionMatch
import MokyaLora.CompositionScan
import MokyaLora.ImeCommits
import MokyaLora.ImeReach
import MokyaLora.ImeCoherent
import MokyaLora.ImePending
import MokyaLora.LruArray
import MokyaLora.LruInvariant
import MokyaLora.ImeRecall
import MokyaLora.ImeTask
import MokyaLora.LruPersist
import MokyaLora.LruReboot
import MokyaLora.ImeAlike
import MokyaLora.ImeSchedule
import MokyaLora.ImeShift
import MokyaLora.ImeTaskLedger
import MokyaLora.TextBufferOk
import MokyaLora.KeypadRun
import MokyaLora.KeyArbitration
import MokyaLora.ImeSentence
import MokyaLora.TrieBounds
import MokyaLora.MiedRanking
import MokyaLora.CompositionReload
import MokyaLora.ImeLongPhrase
import MokyaLora.MessagesInbox
import MokyaLora.NodesDb
import MokyaLora.MieFont
import MokyaLora.MieFontGlyph
import MokyaLora.DictBlob
import MokyaLora.Bq25622
import MokyaLora.Bq25622Recovery
import MokyaLora.Bq25622Watchdog
import MokyaLora.DictReadings
import MokyaLora.ImeContract
import MokyaLora.LruLookup
import MokyaLora.ImeLoad
import MokyaLora.TextBufferInsert
import MokyaLora.TextBufferContext
import MokyaLora.SyllableMinimum
import MokyaLora.WordFidelity
import MokyaLora.ImeFlush
import MokyaLora.ImeAbort
import MokyaLora.ImeCycleLock
import MokyaLora.TeseoLiv3fl
import MokyaLora.SatCycles
import MokyaLora.Lib.Checksum
import MokyaLora.Lib.Transducer
import MokyaLora.KeyInjectFrame
import MokyaLora.KeyInjectSync
import MokyaLora.PositionSplit
import MokyaLora.NmeaLines
import MokyaLora.BridgeDispatch
import MokyaLora.Lib.Inplace
import MokyaLora.LruSplice
import MokyaLora.ImeConsume
import MokyaLora.ImeUndo
import MokyaLora.ImeLongestMatch
import MokyaLora.ImeDisplay
import MokyaLora.Lib.Window
import MokyaLora.KeyInject
import MokyaLora.KeyInjectInvariant
import MokyaLora.KeyInjectOrder
import MokyaLora.KeyInjectRtt
import MokyaLora.KeyInjectRttOrder
import MokyaLora.KeyInjectTransports
import MokyaLora.BridgeUplink
import MokyaLora.BridgeStream
import MokyaLora.BridgeDelivers
import MokyaLora.ImeCandFull
import MokyaLora.ViewRouter
import MokyaLora.MessagesView
import MokyaLora.MessagesScreen
import MokyaLora.MessagesReply
import MokyaLora.NodesView
import MokyaLora.Lib.Monitor
import MokyaLora.I2cBus
import MokyaLora.Lm27965
import MokyaLora.GpsDummy
import MokyaLora.VerifyMied
import MokyaLora.ImePages
import MokyaLora.ImeView
