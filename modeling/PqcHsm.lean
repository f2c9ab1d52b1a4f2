import PqcHsm.Slot.Authentication
import PqcHsm.Slot.HandleFresh
import PqcHsm.Slot.KeyState
import PqcHsm.Slot.PersistHook
import PqcHsm.Store.LoadAtomic
import PqcHsm.Store.CrashSafe
import PqcHsm.Backup.RestoreRecords
import PqcHsm.Backup.Inverse
import PqcHsm.Backup.Secrecy
import PqcHsm.Sdfe.Alignment
import PqcHsm.Wrap.TrustedApp
import PqcHsm.Audit.Anchor
import PqcHsm.P11.MultiPart
import PqcHsm.P11.KeyNamed
import PqcHsm.Tee.Sessions
import PqcHsm.Hal.AccelAtomic
import PqcHsm.Daemon.Handles
import PqcHsm.Service.Restore
import PqcHsm.Slot.SessionHandles
import PqcHsm.Slot.Zeroized
import PqcHsm.Rtl.VaultHistory
import PqcHsm.Service.CbcInverse
import PqcHsm.Service.HttpdJson
import PqcHsm.Tee.SymVault
import PqcHsm.Slot.LoginGrant
import PqcHsm.Backup.InjectTarget
import PqcHsm.Store.AnchorFile
import PqcHsm.Backup.ExportKeeps
import PqcHsm.Audit.FirstBreak
import PqcHsm.Rtl.Sha3Streams
import PqcHsm.Rtl.CondStream
import PqcHsm.Rtl.TrngStream
import PqcHsm.P11.Plaintext
import PqcHsm.P11.TokenSteps
import PqcHsm.P11.Attributes
import PqcHsm.P11.StaleHandles
import PqcHsm.Proto.Tlv
import PqcHsm.Daemon.Packed
import PqcHsm.Service.KeyFile
import PqcHsm.Service.RestoreInside
import PqcHsm.Service.Backup
import PqcHsm.Library.Growth
import PqcHsm.Library.BlockChain
import PqcHsm.Daemon.FaultStops
import PqcHsm.Daemon.SymBuffers
import PqcHsm.Library.FlatJson
import PqcHsm.Service.FieldLookup
import PqcHsm.Library.Rounding
import PqcHsm.Rtl.Rounding
import PqcHsm.Rtl.HealthTests
import PqcHsm.Rtl.BitPack
import PqcHsm.Hal.ShakeSponge
import PqcHsm.Rtl.Sampler
import PqcHsm.Library.StreamReader
import PqcHsm.Tee.TrngFill
import PqcHsm.Rtl.PolySamplers
import PqcHsm.Rtl.SampleInBall
import PqcHsm.Library.ByteFields
import PqcHsm.Rtl.KemArith
import PqcHsm.Rtl.KemDecaps
import PqcHsm.Rtl.DecapsIntake
import PqcHsm.Rtl.DecapsInvariant
import PqcHsm.Rtl.DecapsDecrypt
import PqcHsm.Rtl.DecapsReject
import PqcHsm.Rtl.DecapsProgress
import PqcHsm.Rtl.DecapsRun
import PqcHsm.Tee.SeedStaging
import PqcHsm.Rtl.Crossbar
import PqcHsm.Rtl.CrossbarServes
import PqcHsm.Rtl.OneAddress
import PqcHsm.Library.SparseRows
import PqcHsm.Rtl.HintCores
import PqcHsm.Rtl.VerifyHint
import PqcHsm.Rtl.SignHint
import PqcHsm.Rtl.HintsAgree
import PqcHsm.Library.OneAtATime
import PqcHsm.Rtl.SlavePort
import PqcHsm.Rtl.MlkemAxi
import PqcHsm.Rtl.MldsaAxi
import PqcHsm.Rtl.SlaveServes
import PqcHsm.Rtl.FirewallServes
import PqcHsm.Rtl.BusAnswers
import PqcHsm.Rtl.AccelAnswers
import PqcHsm.Library.Butterflies
import PqcHsm.Rtl.KemNtt
import PqcHsm.Rtl.KemNttValues
import PqcHsm.Rtl.KemNttRun
import PqcHsm.Rtl.KemNttComputes
import PqcHsm.Rtl.DsaNtt
import PqcHsm.Rtl.DsaNttValues
import PqcHsm.Rtl.DsaNttRun
import PqcHsm.Rtl.DsaNttComputes
import PqcHsm.Library.Negacyclic
import PqcHsm.Library.Quantize
import PqcHsm.Rtl.KemCompress
import PqcHsm.Rtl.KemProduct
import PqcHsm.Rtl.DsaProduct
