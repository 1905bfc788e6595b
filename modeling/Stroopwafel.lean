import Stroopwafel.Memory
import Stroopwafel.Arm
import Stroopwafel.ArmExec
import Stroopwafel.Segments
import Stroopwafel.IosElf
import Stroopwafel.IosElfTable
import Stroopwafel.IosElfNotes
import Stroopwafel.InitPhdrs
import Stroopwafel.TrampolineReplace
import Stroopwafel.TrampolineHook
import Stroopwafel.TrampolineReach
import Stroopwafel.CString
import Stroopwafel.Prsh
import Stroopwafel.IpcIoctl
import Stroopwafel.BootLocation
import Stroopwafel.IpcIoctlv
import Stroopwafel.Dynamic
import Stroopwafel.DynamicLink
import Stroopwafel.Footprint
import Stroopwafel.DynamicRelocate
import Stroopwafel.Gpio
import Stroopwafel.Patch
import Stroopwafel.Udelay
import Stroopwafel.SlcRedirect
import Stroopwafel.SdcardSerialised
import Stroopwafel.FsaAgree
import Stroopwafel.SaltPatchLoad
import Stroopwafel.WupserverStream
import Stroopwafel.WupserverRequest
import Stroopwafel.WupserverTransfer
import Stroopwafel.HaiCompanion
import Stroopwafel.BoyerMoore
import Stroopwafel.OtpPatch
import Stroopwafel.C2wPtrs
import Stroopwafel.C2wOtp
import Stroopwafel.SaltPatchRead
import Stroopwafel.SymbolLookup
import Stroopwafel.AncastEncrypt
import Stroopwafel.RemoteWindow
import Stroopwafel.RemoteCopy
import Stroopwafel.ScfmUnwind
import Stroopwafel.StructPack
import Stroopwafel.Ancast
import Stroopwafel.AncastWrite
import Stroopwafel.AncastRead
import Stroopwafel.AncastEdits
import Stroopwafel.AncastRoundTrip
import Stroopwafel.TrampolineChain
import Stroopwafel.TrampolineChainRun
import Stroopwafel.SaltPatchMain
import Stroopwafel.RedNandCard
import Stroopwafel.PluginEntry
import Stroopwafel.SerialRun
import Stroopwafel.RemoteTreeRemove
import Stroopwafel.IpcServerRun
import Stroopwafel.RedSeeprom
