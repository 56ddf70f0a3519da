import Mathlib.Logic.Function.Basic
import WifiSpeaker.Common.Bytes
import WifiSpeaker.Common.Runs

namespace WifiSpeaker.I2s
open Common

/-- The configuration of a port as far as its transmit path goes: what
`i2s_driver_install` and the checks at the head of `i2s_set_clk` let through. -/
structure Config where
  dmaBufCount : Nat
  dmaBufLen : Nat
  bitsPerSample : Nat
  channelNum : Nat
  count : 2 ≤ dmaBufCount ∧ dmaBufCount ≤ 128
  len : 8 ≤ dmaBufLen ∧ dmaBufLen ≤ 1024
  bits : bitsPerSample % 8 = 0 ∧ 16 ≤ bitsPerSample ∧ bitsPerSample ≤ 32
  channels : channelNum = 1 ∨ channelNum = 2

/-- `I2S_CHANNEL_FMT_*` and the number of channels the port gets from it. -/
inductive ChannelFmt
  | rightLeft
  | allRight
  | allLeft
  | onlyRight
  | onlyLeft
  deriving DecidableEq, Repr

def ChannelFmt.channelNum : ChannelFmt → Nat
  | .rightLeft => 2
  | .allRight => 2
  | .allLeft => 2
  | .onlyRight => 1
  | .onlyLeft => 1

/-- The checks of `i2s_driver_install` and of the first `i2s_set_clk`. -/
def i2sDriverInstall (dmaBufCount dmaBufLen bitsPerSample : Nat) (fmt : ChannelFmt) :
    Option Config :=
  if h : (2 ≤ dmaBufCount ∧ dmaBufCount ≤ 128) ∧ (8 ≤ dmaBufLen ∧ dmaBufLen ≤ 1024) ∧
      (bitsPerSample % 8 = 0 ∧ 16 ≤ bitsPerSample ∧ bitsPerSample ≤ 32) then
    some ⟨dmaBufCount,dmaBufLen,bitsPerSample,fmt.channelNum,h.1,h.2.1,h.2.2,by
      cases fmt <;> decide⟩
  else none

/-- Bytes per sample, rounded up to a multiple of 16 bits. -/
def Config.bytesPerSample (c : Config) : Nat := (c.bitsPerSample + 15) / 16 * 2

/-- The bytes of one sample of every channel. -/
def Config.sampleSize (c : Config) : Nat := c.bytesPerSample * c.channelNum

/-- `dma_buf_len`, cut because a DMA buffer is limited to 4092 bytes. -/
def Config.bufLen (c : Config) : Nat :=
  if c.dmaBufLen * c.bytesPerSample * c.channelNum > 4092 then
    4092 / c.bytesPerSample / c.channelNum
  else c.dmaBufLen

/-- `buf_size`. -/
def Config.bufSize (c : Config) : Nat := c.bufLen * c.sampleSize

/-- A buffer and the descriptor that points to it have one number. -/
abbrev Config.Desc (c : Config) : Type := Fin c.dmaBufCount

/-- `desc[0]`, the address `out_link.addr` holds. -/
def Config.first (c : Config) : c.Desc := ⟨0,by have := c.count; omega⟩

/-- The link of a descriptor to the next one; the last one goes back to the first. -/
def Config.empty (c : Config) (desc : c.Desc) : c.Desc :=
  if h : desc + 1 < c.dmaBufCount then ⟨desc + 1,h⟩ else c.first

/-- A `memcpy` into a DMA buffer. -/
structure Store (c : Config) where
  ptr : c.Desc
  offset : Nat
  size : Nat
  deriving DecidableEq, Repr

/-- Where `i2s_intr_handler_default` is; it holds the buffer it has read from
`out_eof_des_addr`. -/
inductive Isr (c : Config)
  | idle
  | drop (finishDesc : c.Desc)
  | send (finishDesc : c.Desc)
  | clear
  deriving DecidableEq, Repr

/-- The transmit side of a port: `i2s_dma_t`, the task in `i2s_write_bytes` with
what is left to write, the DMA link with its descriptor and offset, and the
interrupt. The logs hold the stores, all bytes stored, the bytes fetched from the
buffer under way, and the buffers fetched whole, oldest first. -/
structure State (c : Config) where
  buf : c.Desc → List UInt8
  rwPos : Nat
  currPtr : Option c.Desc
  queue : List c.Desc
  writing : Option (List UInt8)
  desc : c.Desc
  offset : Nat
  outEof : Option c.Desc
  isr : Isr c
  stores : List (Store c)
  pushed : List UInt8
  fetched : List UInt8
  played : List (List UInt8)

variable {c : Config}

/-- The number of items `xQueueCreate` makes room for. -/
def Config.queueLength (c : Config) : Nat := c.dmaBufCount - 1

/-- A full buffer, or none yet: the next one is taken from the queue. No result
where the queue stays empty for the whole wait. -/
def State.acquire (s : State c) : Option (State c) :=
  if s.rwPos = c.bufSize ∨ s.currPtr = none then
    match s.queue with
    | [] => none
    | ptr :: queue => some { s with currPtr := some ptr, queue := queue, rwPos := 0 }
  else some s

/-- The copy to `curr_ptr + rw_pos`. -/
def State.store (s : State c) (bytes : List UInt8) : State c :=
  match s.currPtr with
  | none => s
  | some ptr => { s with
    buf := Function.update s.buf ptr (memcpy (s.buf ptr) s.rwPos bytes)
    rwPos := s.rwPos + bytes.length
    stores := s.stores ++ [⟨ptr,s.rwPos,bytes.length⟩]
    pushed := s.pushed ++ bytes }

/-- `i2s_push_sample`: the port and the number of bytes pushed. -/
def i2sPushSample (s : State c) (sample : Object c.sampleSize) : State c × Nat :=
  match s.acquire with
  | none => (s,0)
  | some s => (s.store sample.bytes,c.sampleSize)

/-- One pass of the loop of `i2s_write_bytes` over the bytes that are left. -/
def State.writePass (s : State c) (src : List UInt8) : State c :=
  if src.length > 0 then
    match s.acquire with
    | none => { s with writing := none }
    | some s =>
      let bytesCanWrite := min (c.bufSize - s.rwPos) src.length
      { s.store (src.take bytesCanWrite) with writing := some (src.drop bytesCanWrite) }
  else { s with writing := none }

/-- The DMA fetches one byte. Behind the last byte of a buffer it goes on to the
next descriptor and raises `out_eof` with the one it has finished. -/
def State.fetch (s : State c) : State c :=
  let fetched := s.fetched ++ ((s.buf s.desc)[s.offset]?).toList
  if s.offset + 1 = c.bufSize then
    { s with
      desc := c.empty s.desc
      offset := 0
      outEof := some s.desc
      fetched := []
      played := s.played ++ [fetched] }
  else { s with offset := s.offset + 1, fetched := fetched }

inductive Act (c : Config)
  | pushSample (sample : Object c.sampleSize)
  | writeBytes (src : List UInt8)
  | writePass
  | fetch
  | interrupt
  | isrDrop
  | isrSend
  | isrClear
  | setClk
  deriving DecidableEq, Repr

/-- One task pushes and writes; the DMA fetches; the interrupt looks whether the
queue is full, takes the oldest buffer out if it was, puts the finished one in if
there is room, and clears `out_eof`. `i2s_set_clk` stops the port and starts it
again, which begins at the first descriptor. -/
def step (s : State c) : Act c → Option (State c)
  | .pushSample sample => if s.writing.isNone then some (i2sPushSample s sample).1 else none
  | .writeBytes src => if s.writing.isNone then some { s with writing := some src } else none
  | .writePass => s.writing.map s.writePass
  | .fetch => some s.fetch
  | .interrupt =>
    match s.isr, s.outEof with
    | .idle, some finishDesc =>
      if s.queue.length = c.queueLength then some { s with isr := .drop finishDesc }
      else some { s with isr := .send finishDesc }
    | _, _ => none
  | .isrDrop =>
    match s.isr with
    | .drop finishDesc => some { s with isr := .send finishDesc, queue := s.queue.tail }
    | _ => none
  | .isrSend =>
    match s.isr with
    | .send finishDesc =>
      some { s with
        isr := .clear
        queue := if s.queue.length < c.queueLength then s.queue ++ [finishDesc] else s.queue }
    | _ => none
  | .isrClear =>
    match s.isr with
    | .clear => some { s with isr := .idle, outEof := none }
    | _ => none
  | .setClk =>
    if s.isr = .idle ∧ s.writing.isNone then
      some { s with desc := c.first, offset := 0, outEof := none, fetched := [] }
    else none

/-- `i2s_create_dma_queue`, and the port started. -/
def system (c : Config) : System (State c) (Act c) where
  init :=
    { buf := fun _ => List.replicate c.bufSize 0
      rwPos := 0
      currPtr := none
      queue := []
      writing := none
      desc := c.first
      offset := 0
      outEof := none
      isr := .idle
      stores := []
      pushed := []
      fetched := []
      played := [] }
  step := step

end WifiSpeaker.I2s
