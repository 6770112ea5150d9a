import AdcCapture.Clocked
import AdcCapture.Fifo
import AdcCapture.Packets
import AdcCapture.LaggedFifo
import AdcCapture.ReadController2
import AdcCapture.WriteController
import AdcCapture.WidthConverter
import AdcCapture.BurstCounter
import AdcCapture.AdcBuffer
import AdcCapture.CaptureIntegrity
import AdcCapture.Drain
import AdcCapture.CaptureOverlap
import AdcCapture.AdcCdc
import AdcCapture.ChannelCoherence
import AdcCapture.PayloadFraming
import AdcCapture.UdpChecksumGen
import AdcCapture.Ring
import AdcCapture.OnesComplement
import AdcCapture.UdpChecksum
import AdcCapture.TxPath
import AdcCapture.TxSystem
import AdcCapture.FramePacing
import AdcCapture.WakeUp
import AdcCapture.AxisGmiiTx
import AdcCapture.TxDone
import AdcCapture.XorForms
import AdcCapture.Lfsr
import AdcCapture.Crc
import AdcCapture.EthCrc
import AdcCapture.AxisGmiiRx
import AdcCapture.GmiiFrames
import AdcCapture.MacLink
import AdcCapture.Gray
import AdcCapture.AxisAsyncFifo
import AdcCapture.AsyncPointers
import AdcCapture.AsyncFrames
import AdcCapture.AsyncProgress
import AdcCapture.AsyncGapless
import AdcCapture.MacTransmit
import AdcCapture.MacReceive
import AdcCapture.ByteFields
import AdcCapture.AxisOutput
import AdcCapture.Framing
import AdcCapture.EthAxisTx
import AdcCapture.EthAxisRx
import AdcCapture.EthLink
import AdcCapture.PayloadLength
import AdcCapture.FrameTx
import AdcCapture.FrameTxRuns
import AdcCapture.FrameRx
import AdcCapture.FrameRxRuns
import AdcCapture.IpHeader
import AdcCapture.IpEthTx
import AdcCapture.IpEthRx
import AdcCapture.UdpIpTx
import AdcCapture.UdpIpRx
import AdcCapture.UdpStack
import AdcCapture.UdpRoundTrip
import AdcCapture.UdpDetector
import AdcCapture.UdpCommandParser
import AdcCapture.CommandPath
import AdcCapture.Datagrams
import AdcCapture.Bitslip
import AdcCapture.AdcInterface
import AdcCapture.Alignment
import AdcCapture.RstBridge
import AdcCapture.ResetPress
import AdcCapture.SpiMaster
import AdcCapture.SpiDriver
