import MyGitCode.Base64
import MyGitCode.JulianTime
import MyGitCode.VoiceRecordTable
import MyGitCode.VoiceCallLog
import MyGitCode.VoiceCallEnd
import MyGitCode.VoiceDtmf
import MyGitCode.CrawlUrlQueues
import MyGitCode.CrawlTicker
import MyGitCode.CrawlDeadlock
import MyGitCode.CrawlExit
import MyGitCode.BloomFilter
import MyGitCode.CrawlLimits
import MyGitCode.CrawlOrder
import MyGitCode.HeaderThreads
import MyGitCode.HttpReceive
import MyGitCode.PageFiles
import MyGitCode.DbEscape
import MyGitCode.DbHandles
import MyGitCode.CFormat
import MyGitCode.SqlTokens
import MyGitCode.SqlStatements
import MyGitCode.SqlTables
import MyGitCode.DbStatements
import MyGitCode.DbQuotes
import MyGitCode.DbParams
import MyGitCode.DbReload
import MyGitCode.DbDevices
import MyGitCode.DbDeviceThreads
import MyGitCode.DbHistory
import MyGitCode.DbHandleCalls
import MyGitCode.VoiceCallData
import MyGitCode.EmergencyNumbers
import MyGitCode.EventListeners
import MyGitCode.CallLogPages
import MyGitCode.VoiceDeleteRequests
import MyGitCode.CBuffer
import MyGitCode.VoiceNumberCopies
import MyGitCode.VoiceTimezone
import MyGitCode.SmsTimestamps
import MyGitCode.SmsTimeTexts
import MyGitCode.UsaTimes
import MyGitCode.DbEscapeBounds
import MyGitCode.DbStatementLengths
import MyGitCode.DbDeviceRows
import MyGitCode.DbUsageList
import MyGitCode.DbItemList
import MyGitCode.UrlCrc
import MyGitCode.StrSplit
import MyGitCode.UrlNormal
import MyGitCode.PageLinks
import MyGitCode.UrlParts
import MyGitCode.HeaderBlocks
import MyGitCode.LinkMatches
import MyGitCode.Base64Grammar
import MyGitCode.Base64Bounds
import MyGitCode.ImageUpload
import MyGitCode.DayOfYear
import MyGitCode.LoopRuns
import MyGitCode.TrialDivision
import MyGitCode.StringRotation
import MyGitCode.CheckFileWrites
import MyGitCode.PasswordText
import MyGitCode.ResponseBuffer
import MyGitCode.OrderedLists
import MyGitCode.VoiceRecordLinks
import MyGitCode.TreeCopies
import MyGitCode.TokenCallback
import MyGitCode.ByteMemory
import MyGitCode.DetectFields
import MyGitCode.MarkedEntries
import MyGitCode.LinkExtensions
import MyGitCode.DbDecodeReads
import MyGitCode.Balloc
import MyGitCode.BallocBlocks
import MyGitCode.BallocRuns
import MyGitCode.HandleTable
import MyGitCode.HashBuckets
import MyGitCode.SymTable
import MyGitCode.SymTableRuns
import MyGitCode.LinkRings
import MyGitCode.QueueServices
import MyGitCode.QueueRuns
import MyGitCode.OrderedMerges
import MyGitCode.WeightedLists
import MyGitCode.WeightedListRuns
import MyGitCode.WeightedMerges
import MyGitCode.WeightedSplits
