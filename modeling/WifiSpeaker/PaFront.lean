import Mathlib.Data.List.Basic

namespace WifiSpeaker.PaFront

def paNoError : Int := 0

def paNoDevice : Int := -1

def paUseHostApiSpecificDeviceSpecification : Int := -2

def paNotInitialized : Int := -10000

def paInvalidDevice : Int := -9996

def paInternalError : Int := -9986

def paInvalidHostApi : Int := -9978

/-- The fields of `PaDeviceInfo` that the recorder looks at. -/
structure PaDeviceInfo where
  name : String
  maxInputChannels : Int
  deriving DecidableEq, Repr

/-- A default device is one of the host API's own or none. -/
def IsDefault (device : Int) (deviceInfos : List PaDeviceInfo) : Prop :=
  device = paNoDevice ∨ 0 ≤ device ∧ device < deviceInfos.length

/-- A host API as its initializer leaves it; `deviceCount` is the length of
`deviceInfos`. -/
structure HostApi where
  name : String
  deviceInfos : List PaDeviceInfo
  defaultInputDevice : Int
  defaultOutputDevice : Int
  input : IsDefault defaultInputDevice deviceInfos
  output : IsDefault defaultOutputDevice deviceInfos

/-- `PaUtilHostApiRepresentation` with the front's part filled in. -/
structure Representation where
  name : String
  deviceInfos : List PaDeviceInfo
  defaultInputDevice : Int
  defaultOutputDevice : Int
  baseDeviceIndex : Int
  deriving DecidableEq, Repr

def Representation.deviceCount (h : Representation) : Int := h.deviceInfos.length

/-- The statics of `pa_front.c`. -/
structure Front where
  hostApis : List Representation
  defaultHostApiIndex : Int
  initializationCount : Nat
  deviceCount : Int
  deriving DecidableEq, Repr

def boot : Front := ⟨[],0,0,0⟩

/-- A default index becomes one of all devices. -/
def shifted (device baseDeviceIndex : Int) : Int :=
  if device ≠ paNoDevice then device + baseDeviceIndex else device

/-- The body of the loop for an initializer that has left a host API. -/
def Front.add (f : Front) (baseDeviceIndex : Int) (h : HostApi) : Front where
  hostApis := f.hostApis ++ [{
    name := h.name
    deviceInfos := h.deviceInfos
    defaultInputDevice := shifted h.defaultInputDevice baseDeviceIndex
    defaultOutputDevice := shifted h.defaultOutputDevice baseDeviceIndex
    baseDeviceIndex := baseDeviceIndex }]
  defaultHostApiIndex :=
    if f.defaultHostApiIndex = -1 ∧
        (h.defaultInputDevice ≠ paNoDevice ∨ h.defaultOutputDevice ≠ paNoDevice) then
      f.hostApis.length
    else f.defaultHostApiIndex
  initializationCount := f.initializationCount
  deviceCount := f.deviceCount + h.deviceInfos.length

/-- The loop over `paHostApiInitializers`; each initializer is given by its result and
the host API it leaves, if any. -/
def initLoop (f : Front) (baseDeviceIndex : Int) : List (Int × Option HostApi) → Int × Front
  | [] => (paNoError,f)
  | (result,hostApi) :: rest =>
    if result ≠ paNoError then (result,f)
    else
      match hostApi with
      | none => initLoop f baseDeviceIndex rest
      | some h => initLoop (f.add baseDeviceIndex h) (baseDeviceIndex + h.deviceInfos.length) rest

def terminateHostApis (f : Front) : Front :=
  { f with hostApis := [], defaultHostApiIndex := 0, deviceCount := 0 }

def initializeHostApis (f : Front) (initializers : List (Int × Option HostApi)) : Int × Front :=
  let (result,f) := initLoop { f with hostApis := [], defaultHostApiIndex := -1, deviceCount := 0 }
    0 initializers
  if result ≠ paNoError then (result,terminateHostApis f)
  else if f.defaultHostApiIndex = -1 then (result,{ f with defaultHostApiIndex := 0 })
  else (result,f)

def paInitialize (f : Front) (initializers : List (Int × Option HostApi)) : Int × Front :=
  if f.initializationCount ≠ 0 then
    (paNoError,{ f with initializationCount := f.initializationCount + 1 })
  else
    let (result,f) := initializeHostApis f initializers
    if result = paNoError then
      (result,{ f with initializationCount := f.initializationCount + 1 })
    else (result,f)

/-- The loop of `FindHostApi`, from the host API with number `i` on. -/
def findLoop (device : Int) (i : Nat) : List Representation → Option (Nat × Int)
  | [] => none
  | h :: rest =>
    if device ≥ h.deviceCount then findLoop (device - h.deviceCount) (i + 1) rest
    else some (i,device)

/-- The host API of a device and its index there; −1 is no result. -/
def findHostApi (f : Front) (device : Int) : Option (Nat × Int) :=
  if f.initializationCount = 0 then none
  else if device < 0 then none
  else findLoop device 0 f.hostApis

def paGetHostApiCount (f : Front) : Int :=
  if f.initializationCount = 0 then paNotInitialized else f.hostApis.length

/-- A null pointer is no result. -/
def paGetHostApiInfo (f : Front) (hostApi : Int) : Option Representation :=
  if f.initializationCount = 0 then none
  else if hostApi < 0 ∨ hostApi ≥ f.hostApis.length then none
  else f.hostApis[hostApi.toNat]?

def paHostApiDeviceIndexToDeviceIndex (f : Front) (hostApi hostApiDeviceIndex : Int) : Int :=
  if f.initializationCount = 0 then paNotInitialized
  else
    match paGetHostApiInfo f hostApi with
    | none => paInvalidHostApi
    | some h =>
      if hostApiDeviceIndex < 0 ∨ hostApiDeviceIndex ≥ h.deviceCount then paInvalidDevice
      else h.baseDeviceIndex + hostApiDeviceIndex

def paGetDeviceInfo (f : Front) (device : Int) : Option PaDeviceInfo := do
  let (i,k) ← findHostApi f device
  let h ← f.hostApis[i]?
  h.deviceInfos[k.toNat]?

def paGetDefaultHostApi (f : Front) : Int :=
  if f.initializationCount = 0 then paNotInitialized
  else if f.defaultHostApiIndex < 0 ∨ f.defaultHostApiIndex ≥ f.hostApis.length then
    paInternalError
  else f.defaultHostApiIndex

def paGetDefaultInputDevice (f : Front) : Int :=
  let hostApi := paGetDefaultHostApi f
  if hostApi < 0 then paNoDevice
  else ((f.hostApis[hostApi.toNat]?).map Representation.defaultInputDevice).getD paNoDevice

def hostName : String := "Windows WASAPI"

def devName : String := "Speakers (2- High Definition Audio Device) (loopback)"

/-- The device to record from. -/
def wanted (dinfo : PaDeviceInfo) : Bool := dinfo.maxInputChannels > 0 && devName == dinfo.name

/-- The inner loop of `getRecordDevIndex`, with the number of turns left. -/
def deviceLoop (f : Front) (hostNum : Nat) : Nat → Nat → Option Int
  | 0, _ => none
  | n + 1, hostDevice =>
    let deviceNum := paHostApiDeviceIndexToDeviceIndex f hostNum hostDevice
    if (paGetDeviceInfo f deviceNum).any wanted then some deviceNum
    else deviceLoop f hostNum n (hostDevice + 1)

/-- The outer loop, with the number of turns left: what it returns from inside. -/
def hostLoop (f : Front) : Nat → Nat → Option Int
  | 0, _ => none
  | n + 1, hostNum =>
    match paGetHostApiInfo f hostNum with
    | none => hostLoop f n (hostNum + 1)
    | some hinfo =>
      if hostName == hinfo.name then
        some ((deviceLoop f hostNum hinfo.deviceCount.toNat 0).getD hinfo.defaultInputDevice)
      else hostLoop f n (hostNum + 1)

/-- `AudioIO::getRecordDevIndex`. No result is the failed assertion, which a build with
`NDEBUG` does not have. -/
def getRecordDevIndex (ndebug : Bool) (f : Front) : Option Int :=
  match hostLoop f (paGetHostApiCount f).toNat 0 with
  | some deviceNum => some deviceNum
  | none =>
    let deviceNum := paGetDefaultInputDevice f
    if deviceNum < 0 then if ndebug then some 0 else none
    else some deviceNum

/-- How far `main` gets with its device: it ends, or stops at the assertion or at a null
pointer, or `Pa_OpenStream` refuses the device or hands it to its host API. -/
inductive Start
  | failed (err : Int)
  | noDevice
  | assertion
  | nullInfo
  | refused (err : Int)
  | opens (hostApi : Nat) (device : Int)
  deriving DecidableEq, Repr

/-- What `ValidateOpenStreamParameters` makes of an input device; the other parameters
`main` gives pass. -/
def validateInputDevice (f : Front) (device : Int) : Start :=
  if device = paUseHostApiSpecificDeviceSpecification then .refused paInvalidDevice
  else if device < 0 ∨ device ≥ f.deviceCount then .refused paInvalidDevice
  else
    match findHostApi f device with
    | none => .refused paInternalError
    | some (hostApi,device) => .opens hostApi device

/-- `main` from the index on: it ends without a device, looks at the latency in its
`PaDeviceInfo`, and opens the stream. -/
def openDevice (f : Front) (device : Int) : Start :=
  if device = paNoDevice then .noDevice
  else
    match paGetDeviceInfo f device with
    | none => .nullInfo
    | some _ => validateInputDevice f device

/-- `main` of the recorder up to the open stream. -/
def startRecording (ndebug : Bool) (initializers : List (Int × Option HostApi)) : Start :=
  let (err,f) := paInitialize boot initializers
  if err ≠ paNoError then .failed err
  else
    match getRecordDevIndex ndebug f with
    | none => .assertion
    | some device => openDevice f device

end WifiSpeaker.PaFront
