import WifiSpeaker.Device
import WifiSpeaker.MTSClient

namespace WifiSpeaker.WavConnection
open Common

/-- The WAV-file sender and the device at the two ends of a connection, with what the
device has sent and the sender has not received yet. -/
structure State where
  client : MTSClient.State
  device : Device.State
  toClient : List UInt8

inductive Act
  | client (act : MTSClient.Act)
  | device (act : Device.Act)
  deriving DecidableEq, Repr

/-- What a step of the device sends: nothing. Its only call of `send` is in `send_ack`,
which nothing calls. -/
def sends : Device.Act → List UInt8
  | _ => []

/-- `recv` takes a beginning of what the other end has sent; bytes arrive in order and at
most once. -/
def step (beyond : Nat → UInt8) (s : State) : Act → Option State
  | .client (.recv bytes) =>
    if bytes <+: s.toClient then do
      let client ← MTSClient.step s.client (.recv bytes)
      return { s with client := client, toClient := s.toClient.drop bytes.length }
    else none
  | .client act => do return { s with client := ← MTSClient.step s.client act }
  | .device act => do
    let device ← Device.step beyond s.device act
    if device.received <+: s.client.sent.flatten then
      return { s with device := device, toClient := s.toClient ++ sends act }
    else none

/-- `_tmain` on a file, connected to the device. -/
def connection (file : List UInt8) (junk : MTSClient.Junk) (client : Int) (beyond : Nat → UInt8)
    (sampleRate : UInt32) : System State Act where
  init := ⟨(MTSClient.tmain file junk).init,(Device.device client beyond sampleRate).init,[]⟩
  step := step beyond

end WifiSpeaker.WavConnection
