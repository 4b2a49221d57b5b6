import TcIpcCtrl.RingRefinement
import TcIpcCtrl.RingInterface
import TcIpcCtrl.FrameGrammar
import TcIpcCtrl.DecoderPasses
import TcIpcCtrl.DecoderRefinement
import TcIpcCtrl.RoundTrip
import TcIpcCtrl.ReceivePath
import TcIpcCtrl.Delivery
import TcIpcCtrl.ReceiveProgress
import TcIpcCtrl.ReadRing
import TcIpcCtrl.WritePath
import TcIpcCtrl.LifeCycle
import TcIpcCtrl.Ownership
import TcIpcCtrl.BinaryPoly
import TcIpcCtrl.CrcPolynomial
import TcIpcCtrl.ReferenceScan
import TcIpcCtrl.Resynchronization
import TcIpcCtrl.FrameErrors
import TcIpcCtrl.PassMemory
import TcIpcCtrl.Reencoding
import TcIpcCtrl.FrameBounds
import TcIpcCtrl.Resumption
import TcIpcCtrl.SelfDelimiting
import TcIpcCtrl.WriteErrors
import TcIpcCtrl.RingSizes
import TcIpcCtrl.RingBytewise
import TcIpcCtrl.MessageSend
import TcIpcCtrl.DecoderTermination
import TcIpcCtrl.RingHistory
import TcIpcCtrl.UnlockedReadRing
import TcIpcCtrl.LinkWindow
import TcIpcCtrl.FlippedBits
import TcIpcCtrl.ThreadedReceiver
import TcIpcCtrl.DecoderWork
import TcIpcCtrl.UnlockedWriteRing
import TcIpcCtrl.ForkJoin
import TcIpcCtrl.Teardown
import TcIpcCtrl.FrameCode
import TcIpcCtrl.StrayBytes
import TcIpcCtrl.WriteDrain
import TcIpcCtrl.UnlockedReceiver
