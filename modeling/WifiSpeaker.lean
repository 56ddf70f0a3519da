import WifiSpeaker.Common.Runs
import WifiSpeaker.Common.Bytes
import WifiSpeaker.Common.Cyclic
import WifiSpeaker.Common.Queue
import WifiSpeaker.Common.Multiplex
import WifiSpeaker.Common.Answers
import WifiSpeaker.Common.Strided
import WifiSpeaker.Common.Segments
import WifiSpeaker.DataBuffer
import WifiSpeaker.DataBufferCalls
import WifiSpeaker.Wire
import WifiSpeaker.PrcessCharacter
import WifiSpeaker.RenderSamples
import WifiSpeaker.Renderer
import WifiSpeaker.Sender
import WifiSpeaker.Server
import WifiSpeaker.Clients
import WifiSpeaker.MTSClient
import WifiSpeaker.SpiRamFifo
import WifiSpeaker.SpiRamFifoCalls
import WifiSpeaker.Producers
import WifiSpeaker.RenderAudio
import WifiSpeaker.RenderStream
import WifiSpeaker.AudioPlayer
import WifiSpeaker.FreeRtosQueue
import WifiSpeaker.I2s
import WifiSpeaker.I2sQueue
import WifiSpeaker.Semaphores
import WifiSpeaker.I2sClock
import WifiSpeaker.Speaker
import WifiSpeaker.BufferProcessor
import WifiSpeaker.Capture
import WifiSpeaker.Device
import WifiSpeaker.WavConnection
import WifiSpeaker.PaFront
import WifiSpeaker.Proofs.DataBufferShape
import WifiSpeaker.Proofs.DataBufferQueue
import WifiSpeaker.Proofs.WriterFrame
import WifiSpeaker.Proofs.Segmentation
import WifiSpeaker.Proofs.ReadReturns
import WifiSpeaker.Proofs.Framing
import WifiSpeaker.Proofs.ReceiverBounds
import WifiSpeaker.Proofs.RenderDivisors
import WifiSpeaker.Proofs.RenderWords
import WifiSpeaker.Proofs.SampleRate
import WifiSpeaker.Proofs.SenderAccount
import WifiSpeaker.Proofs.WireAgreement
import WifiSpeaker.Proofs.WavSender
import WifiSpeaker.Proofs.WavFile
import WifiSpeaker.Proofs.ServerSteps
import WifiSpeaker.Proofs.SingleReader
import WifiSpeaker.Proofs.Descriptors
import WifiSpeaker.Proofs.Releases
import WifiSpeaker.Proofs.StartUp
import WifiSpeaker.Proofs.ClientMixing
import WifiSpeaker.Proofs.FifoSteps
import WifiSpeaker.Proofs.FifoQueue
import WifiSpeaker.Proofs.FifoReset
import WifiSpeaker.Proofs.FifoReads
import WifiSpeaker.Proofs.FifoWakeup
import WifiSpeaker.Proofs.ProducerRace
import WifiSpeaker.Proofs.Playback
import WifiSpeaker.Proofs.FrameAlignment
import WifiSpeaker.Proofs.QueueAnswers
import WifiSpeaker.Proofs.I2sStores
import WifiSpeaker.Proofs.I2sOrder
import WifiSpeaker.Proofs.FreeBuffers
import WifiSpeaker.Proofs.FifoSemaphores
import WifiSpeaker.Proofs.I2sRestart
import WifiSpeaker.Proofs.I2sProgress
import WifiSpeaker.Proofs.I2sClock
import WifiSpeaker.Proofs.SpeakerSound
import WifiSpeaker.Proofs.SpeakerProgress
import WifiSpeaker.Proofs.BlockAdaption
import WifiSpeaker.Proofs.CaptureStream
import WifiSpeaker.Proofs.DeviceStream
import WifiSpeaker.Proofs.Silence
import WifiSpeaker.Proofs.DeviceChoice
