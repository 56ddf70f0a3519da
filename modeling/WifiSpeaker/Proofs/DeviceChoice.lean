import WifiSpeaker.Common.Segments
import WifiSpeaker.PaFront

namespace WifiSpeaker.Proofs.DeviceChoice
open Common PaFront

/-- A host API whose devices are numbered from `b` on. -/
def represent (b : Nat) (h : HostApi) : Representation where
  name := h.name
  deviceInfos := h.deviceInfos
  defaultInputDevice := shifted h.defaultInputDevice b
  defaultOutputDevice := shifted h.defaultOutputDevice b
  baseDeviceIndex := b

/-- The host APIs with their devices numbered one behind the other. -/
def layout : Nat → List HostApi → List Representation
  | _, [] => []
  | b, h :: hosts => represent b h :: layout (b + h.deviceInfos.length) hosts

/-- The devices of each host API. -/
def segments (hosts : List HostApi) : List (List PaDeviceInfo) := hosts.map HostApi.deviceInfos

/-- A host API the front may take for its default one. -/
def hasDefault (h : HostApi) : Bool :=
  h.defaultInputDevice ≠ paNoDevice || h.defaultOutputDevice ≠ paNoDevice

def firstDefault (n : Nat) (hosts : List HostApi) : Int :=
  (((hosts.zipIdx n).find? (fun q => hasDefault q.1)).map (fun q => (q.2 : Int))).getD (-1)

theorem firstDefault_cons (n : Nat) (h : HostApi) (hosts : List HostApi) :
    firstDefault n (h :: hosts) = if hasDefault h then (n : Int) else firstDefault (n + 1) hosts := by
  unfold firstDefault
  rw [List.zipIdx_cons,List.find?_cons]
  cases hasDefault h <;> rfl

/-- The front with more host APIs. -/
def laid (f : Front) (b : Nat) (hosts : List HostApi) : Front where
  hostApis := f.hostApis ++ layout b hosts
  defaultHostApiIndex :=
    if f.defaultHostApiIndex = -1 then firstDefault f.hostApis.length hosts
    else f.defaultHostApiIndex
  initializationCount := f.initializationCount
  deviceCount := f.deviceCount + (segments hosts).flatten.length

theorem laid_nil (f : Front) (b : Nat) : laid f b [] = f := by
  obtain ⟨hostApis,index,count,devices⟩ := f
  simp only [laid,layout,List.append_nil,firstDefault,segments,List.zipIdx_nil,List.find?_nil,
    Option.map_none,Option.getD_none,List.map_nil,List.flatten_nil,List.length_nil,Front.mk.injEq,
    true_and]
  refine ⟨?_,Int.add_zero devices⟩
  split_ifs with h
  · exact h.symm
  · rfl

theorem laid_cons (f : Front) (b : Nat) (h : HostApi) (hosts : List HostApi) :
    laid f b (h :: hosts) = laid (f.add b h) (b + h.deviceInfos.length) hosts := by
  have hdefault : (h.defaultInputDevice ≠ paNoDevice ∨ h.defaultOutputDevice ≠ paNoDevice) ↔
      hasDefault h = true := by
    simp [hasDefault]
  simp only [laid,Front.add,layout,represent,firstDefault_cons,hdefault,segments,List.map_cons,
    List.flatten_cons,List.length_append,List.append_assoc,List.singleton_append,
    List.length_singleton,Front.mk.injEq,true_and]
  refine ⟨?_,by omega⟩
  by_cases hnone : f.defaultHostApiIndex = -1
  · by_cases hh : hasDefault h
    · have hindex : ¬ (f.hostApis.length : Int) = -1 := by omega
      simp [hnone,hh,hindex]
    · simp [hnone,hh]
  · simp [hnone]

/-- The loop over initializers that all succeed. -/
theorem initLoop_hosts {inits : List (Int × Option HostApi)} (hok : ∀ p ∈ inits, p.1 = paNoError)
    (f : Front) (b : Nat) :
    initLoop f b inits = (paNoError,laid f b (inits.filterMap Prod.snd)) := by
  induction inits generalizing f b with
  | nil => rw [initLoop,List.filterMap_nil,laid_nil]
  | cons p inits ih =>
    obtain ⟨result,hostApi⟩ := p
    have hresult : result = paNoError := hok _ List.mem_cons_self
    have hrest : ∀ p ∈ inits, p.1 = paNoError := fun p hp => hok p (List.mem_cons_of_mem _ hp)
    cases hostApi with
    | none =>
      rw [initLoop,if_neg (not_not.mpr hresult),List.filterMap_cons_none rfl]
      exact ih hrest f b
    | some h =>
      have hmore : ((result,some h) :: inits).filterMap Prod.snd =
          h :: inits.filterMap Prod.snd := rfl
      rw [initLoop,if_neg (not_not.mpr hresult),hmore,laid_cons]
      exact ih hrest (f.add b h) (b + h.deviceInfos.length)

/-- The loop ends with the first error. -/
theorem initLoop_result (f : Front) (b : Int) (inits : List (Int × Option HostApi)) :
    (initLoop f b inits).1 =
      ((inits.find? (fun p => p.1 ≠ paNoError)).map Prod.fst).getD paNoError := by
  induction inits generalizing f b with
  | nil => rfl
  | cons p inits ih =>
    obtain ⟨result,hostApi⟩ := p
    unfold initLoop
    by_cases hresult : result = paNoError
    · rw [List.find?_cons_of_neg (by simpa using hresult),if_neg (not_not.mpr hresult)]
      cases hostApi with
      | none => exact ih f b
      | some h => exact ih _ _
    · rw [List.find?_cons_of_pos (by simpa using hresult),if_pos hresult]
      rfl

/-- The front once `Pa_Initialize` has succeeded. -/
def ready (hosts : List HostApi) : Front where
  hostApis := layout 0 hosts
  defaultHostApiIndex := if firstDefault 0 hosts = -1 then 0 else firstDefault 0 hosts
  initializationCount := 1
  deviceCount := (segments hosts).flatten.length

theorem ready_counted (hosts : List HostApi) : ¬ (ready hosts).initializationCount = 0 :=
  Nat.one_ne_zero

theorem paInitialize_ok {inits : List (Int × Option HostApi)}
    (hok : ∀ p ∈ inits, p.1 = paNoError) :
    paInitialize boot inits = (paNoError,ready (inits.filterMap Prod.snd)) := by
  have hloop := initLoop_hosts hok ⟨[],-1,0,0⟩ 0
  rw [Int.natCast_zero] at hloop
  simp only [paInitialize,initializeHostApis,boot,hloop,laid,ready,ne_eq,not_true_eq_false,if_false,
    if_true,List.nil_append,List.length_nil,Int.zero_add,Nat.zero_add]
  by_cases h : firstDefault 0 (inits.filterMap Prod.snd) = -1
  · simp only [h,if_true]
  · simp only [h,if_true,if_false]

theorem initializeHostApis_result (f : Front) (inits : List (Int × Option HostApi)) :
    (initializeHostApis f inits).1 =
      ((inits.find? (fun p => p.1 ≠ paNoError)).map Prod.fst).getD paNoError := by
  rw [← initLoop_result { f with hostApis := [], defaultHostApiIndex := -1, deviceCount := 0 } 0 inits]
  unfold initializeHostApis
  dsimp only
  split_ifs
  · rfl
  · rfl
  · rfl

theorem paInitialize_result (inits : List (Int × Option HostApi)) :
    (paInitialize boot inits).1 =
      ((inits.find? (fun p => p.1 ≠ paNoError)).map Prod.fst).getD paNoError := by
  have hfresh : ¬ boot.initializationCount ≠ 0 := not_not.mpr rfl
  rw [← initializeHostApis_result boot inits,paInitialize,if_neg hfresh]
  dsimp only
  split_ifs
  · rfl
  · rfl

section
variable {hosts : List HostApi} {h : HostApi} {i j k d : Nat}

theorem layout_getElem? (b : Nat) (hosts : List HostApi) (i : Nat) :
    (layout b hosts)[i]? =
      (hosts[i]?).map (represent (b + segmentBase (segments hosts) i)) := by
  induction hosts generalizing b i with
  | nil => simp [layout]
  | cons h hosts ih =>
    cases i with
    | zero => rfl
    | succ i =>
      rw [layout,List.getElem?_cons_succ,ih,List.getElem?_cons_succ]
      simp only [segments,List.map_cons,segmentBase_succ,Nat.add_assoc]

theorem length_layout (b : Nat) (hosts : List HostApi) :
    (layout b hosts).length = hosts.length := by
  induction hosts generalizing b with
  | nil => rfl
  | cons h hosts ih => rw [layout,List.length_cons,ih,List.length_cons]

theorem segments_getElem? (hh : hosts[i]? = some h) : (segments hosts)[i]? = some h.deviceInfos := by
  rw [segments,List.getElem?_map,hh,Option.map_some]

/-- The search subtracts its way to the segment of the device. -/
theorem findLoop_layout (d i b : Nat) (hosts : List HostApi) :
    findLoop d i (layout b hosts) =
      (locate (segments hosts) d).map (fun p => (i + p.1,(p.2 : Int))) := by
  induction hosts generalizing d i b with
  | nil => rfl
  | cons h hosts ih =>
    rw [layout,findLoop,segments,List.map_cons,locate]
    by_cases hd : d < h.deviceInfos.length
    · have hin : ¬ (d : Int) ≥ (represent b h).deviceCount := by
        change ¬ (d : Int) ≥ h.deviceInfos.length
        omega
      rw [if_neg hin,if_pos hd]
      rfl
    · have hout : (d : Int) ≥ (represent b h).deviceCount := by
        change (d : Int) ≥ h.deviceInfos.length
        omega
      have hrest : (d : Int) - (represent b h).deviceCount =
          ((d - h.deviceInfos.length : Nat) : Int) := by
        change (d : Int) - h.deviceInfos.length = _
        omega
      rw [if_pos hout,if_neg hd,hrest,ih,Option.map_map]
      congr 1
      funext p
      simp only [Function.comp,Prod.mk.injEq,and_true]
      omega

theorem findHostApi_ready (hosts : List HostApi) (d : Nat) :
    findHostApi (ready hosts) d =
      (locate (segments hosts) d).map (fun p => (p.1,(p.2 : Int))) := by
  have hpos : ¬ (d : Int) < 0 := by omega
  have hloop := findLoop_layout d 0 0 hosts
  simp only [Nat.zero_add] at hloop
  rw [findHostApi,if_neg (ready_counted hosts),if_neg hpos]
  exact hloop

/-- The number of a device among all. -/
def index (hosts : List HostApi) (i k : Nat) : Nat := segmentBase (segments hosts) i + k

theorem findHostApi_index (hh : hosts[i]? = some h) (hk : k < h.deviceInfos.length) :
    findHostApi (ready hosts) (index hosts i k) = some (i,(k : Int)) := by
  rw [findHostApi_ready,index,locate_segment (segments_getElem? hh) hk,Option.map_some]

theorem paGetHostApiInfo_ready (hosts : List HostApi) (i : Nat) :
    paGetHostApiInfo (ready hosts) i =
      (hosts[i]?).map (represent (segmentBase (segments hosts) i)) := by
  have hlayout := layout_getElem? 0 hosts i
  rw [Nat.zero_add] at hlayout
  rw [paGetHostApiInfo,if_neg (ready_counted hosts)]
  split_ifs with hrange
  · change (i : Int) < 0 ∨ (i : Int) ≥ (layout 0 hosts).length at hrange
    rw [length_layout] at hrange
    rw [List.getElem?_eq_none (by omega)]
    rfl
  · exact hlayout

theorem deviceIndex_ready (hh : hosts[i]? = some h) (hk : k < h.deviceInfos.length) :
    paHostApiDeviceIndexToDeviceIndex (ready hosts) i k = index hosts i k := by
  have hrange : ¬ ((k : Int) < 0 ∨ (k : Int) ≥
      (represent (segmentBase (segments hosts) i) h).deviceCount) := by
    change ¬ ((k : Int) < 0 ∨ (k : Int) ≥ h.deviceInfos.length)
    omega
  rw [paHostApiDeviceIndexToDeviceIndex,if_neg (ready_counted hosts),paGetHostApiInfo_ready,hh,Option.map_some]
  simp only
  rw [if_neg hrange,index]
  change (segmentBase (segments hosts) i : Int) + k = _
  omega

theorem paGetDeviceInfo_index (hh : hosts[i]? = some h) (hk : k < h.deviceInfos.length) :
    paGetDeviceInfo (ready hosts) (index hosts i k) = h.deviceInfos[k]? := by
  have hlayout : (ready hosts).hostApis[i]? = _ := layout_getElem? 0 hosts i
  rw [paGetDeviceInfo,findHostApi_index hh hk]
  simp only [Option.bind_eq_bind,Option.bind_some,hlayout,hh,Option.map_some,Int.toNat_natCast]
  rfl

/-- The inner loop finds the first device that is wanted. -/
theorem deviceLoop_ready (hh : hosts[i]? = some h) (n : Nat) (hn : j + n = h.deviceInfos.length) :
    deviceLoop (ready hosts) i n j =
      (((h.deviceInfos.drop j).zipIdx j).find? (fun q => wanted q.1)).map
        (fun q => (index hosts i q.2 : Int)) := by
  induction n generalizing j with
  | zero =>
    rw [List.drop_of_length_le (by omega)]
    rfl
  | succ n ih =>
    have hj : j < h.deviceInfos.length := by omega
    rw [deviceLoop,deviceIndex_ready hh hj,List.drop_eq_getElem_cons hj,List.zipIdx_cons]
    simp only [paGetDeviceInfo_index hh hj,List.getElem?_eq_getElem hj,Option.any_some,
      List.find?_cons]
    cases wanted h.deviceInfos[j] with
    | true => rfl
    | false => exact ih (by omega)

/-- The index the outer loop returns from a host API. -/
def chosen (hosts : List HostApi) (h : HostApi) (i : Nat) : Int :=
  ((h.deviceInfos.zipIdx.find? (fun q => wanted q.1)).map (fun q => (index hosts i q.2 : Int))).getD
    (shifted h.defaultInputDevice (segmentBase (segments hosts) i))

/-- The outer loop stops at the first host API with the name. -/
theorem hostLoop_ready (n : Nat) (hn : i + n = hosts.length) :
    hostLoop (ready hosts) n i =
      (((hosts.drop i).zipIdx i).find? (fun q => hostName == q.1.name)).map
        (fun q => chosen hosts q.1 q.2) := by
  induction n generalizing i with
  | zero =>
    rw [List.drop_of_length_le (by omega)]
    rfl
  | succ n ih =>
    have hi : i < hosts.length := by omega
    have hh : hosts[i]? = some hosts[i] := List.getElem?_eq_getElem hi
    rw [hostLoop,paGetHostApiInfo_ready,hh,Option.map_some,List.drop_eq_getElem_cons hi,
      List.zipIdx_cons,List.find?_cons]
    simp only [represent]
    by_cases hname : (hostName == hosts[i].name) = true
    · have hloop := deviceLoop_ready hh hosts[i].deviceInfos.length (Nat.zero_add _)
      rw [List.drop_zero] at hloop
      simp only [hname,if_true,Option.map_some,chosen,← hloop]
      rfl
    · simp only [Bool.not_eq_true] at hname
      simp only [hname,Bool.false_eq_true,if_false]
      exact ih (by omega)

theorem index_lt (hh : hosts[i]? = some h) (hk : k < h.deviceInfos.length) :
    index hosts i k < (segments hosts).flatten.length := by
  have hsome := locate_segment (segments_getElem? hh) hk
  by_contra hge
  rw [← index,locate_eq_none_iff.mpr (Nat.le_of_not_lt hge)] at hsome
  cases hsome

/-- A device that is there is opened, with its index at its host API. -/
theorem openDevice_index (hh : hosts[i]? = some h) (hk : k < h.deviceInfos.length) :
    openDevice (ready hosts) (index hosts i k) = .opens i k := by
  have hlt := index_lt hh hk
  have hsome : ¬ (index hosts i k : Int) = paNoDevice := by
    change ¬ (index hosts i k : Int) = -1
    omega
  have hplain : ¬ (index hosts i k : Int) = paUseHostApiSpecificDeviceSpecification := by
    change ¬ (index hosts i k : Int) = -2
    omega
  have hrange : ¬ ((index hosts i k : Int) < 0 ∨ (index hosts i k : Int) ≥
      (ready hosts).deviceCount) := by
    change ¬ ((index hosts i k : Int) < 0 ∨
      (index hosts i k : Int) ≥ ((segments hosts).flatten.length : Int))
    omega
  rw [openDevice,if_neg hsome,paGetDeviceInfo_index hh hk,List.getElem?_eq_getElem hk]
  simp only
  rw [validateInputDevice,if_neg hplain,if_neg hrange,findHostApi_index hh hk]

/-- The default device of a host API among all devices. -/
theorem shifted_default (hosts : List HostApi) (i : Nat)
    (hd : h.defaultInputDevice ≠ paNoDevice) :
    ∃ k : Nat, h.defaultInputDevice = k ∧ k < h.deviceInfos.length ∧
      shifted h.defaultInputDevice (segmentBase (segments hosts) i) = index hosts i k := by
  rcases h.input with hnone | ⟨hlow,hhigh⟩
  · exact absurd hnone hd
  · refine ⟨h.defaultInputDevice.toNat,by omega,by omega,?_⟩
    rw [shifted,if_pos hd,index]
    omega

/-- The device of a host API to record from: the first one wanted, or its default. -/
def recordDevice (h : HostApi) (i : Nat) : Start :=
  match h.deviceInfos.zipIdx.find? (fun q => wanted q.1) with
  | some (_,k) => .opens i k
  | none => if h.defaultInputDevice = paNoDevice then .noDevice else .opens i h.defaultInputDevice

theorem openDevice_chosen (hh : hosts[i]? = some h) :
    openDevice (ready hosts) (chosen hosts h i) = recordDevice h i := by
  unfold chosen recordDevice
  cases hfind : h.deviceInfos.zipIdx.find? (fun q => wanted q.1) with
  | some q =>
    obtain ⟨dinfo,k⟩ := q
    have hk := List.mk_mem_zipIdx_iff_getElem?.mp (List.mem_of_find?_eq_some hfind)
    exact openDevice_index hh (List.getElem?_eq_some_iff.mp hk).1
  | none =>
    simp only [Option.map_none,Option.getD_none]
    by_cases hd : h.defaultInputDevice = paNoDevice
    · rw [if_pos hd,shifted,if_neg (not_not.mpr hd),hd,openDevice,if_pos rfl]
    · obtain ⟨k,hk,hlt,hshift⟩ := shifted_default hosts i hd
      rw [if_neg hd,hshift,hk,openDevice_index hh hlt]

/-- The default input device of the first host API that has a default device. -/
theorem paGetDefaultInputDevice_ready (hosts : List HostApi) :
    paGetDefaultInputDevice (ready hosts) =
      ((hosts.zipIdx.find? (fun q => hasDefault q.1)).map (fun q =>
        shifted q.1.defaultInputDevice (segmentBase (segments hosts) q.2))).getD paNoDevice := by
  have hlayout : ∀ i, (ready hosts).hostApis[i]? = _ := layout_getElem? 0 hosts
  have hlen : (ready hosts).hostApis.length = hosts.length := length_layout 0 hosts
  unfold paGetDefaultInputDevice paGetDefaultHostApi
  rw [if_neg (ready_counted hosts),hlen]
  cases hfind : hosts.zipIdx.find? (fun q => hasDefault q.1) with
  | some q =>
    obtain ⟨h,i⟩ := q
    have hh := List.mk_mem_zipIdx_iff_getElem?.mp (List.mem_of_find?_eq_some hfind)
    have hi := (List.getElem?_eq_some_iff.mp hh).1
    have hfirst : firstDefault 0 hosts = i := by rw [firstDefault,hfind]; rfl
    have hindex : (ready hosts).defaultHostApiIndex = i := by
      change (if firstDefault 0 hosts = -1 then 0 else firstDefault 0 hosts) = (i : Int)
      rw [hfirst,if_neg (by omega)]
    have hrange : ¬ ((i : Int) < 0 ∨ (i : Int) ≥ hosts.length) := by omega
    simp only [hindex,if_neg hrange,Int.toNat_natCast,hlayout,hh,Option.map_some,Nat.zero_add,
      Option.getD_some,if_neg (by omega : ¬ (i : Int) < 0)]
    rfl
  | none =>
    have hfirst : firstDefault 0 hosts = -1 := by rw [firstDefault,hfind]; rfl
    have hindex : (ready hosts).defaultHostApiIndex = 0 := by
      change (if firstDefault 0 hosts = -1 then 0 else firstDefault 0 hosts) = 0
      rw [if_pos hfirst]
    simp only [hindex,Option.map_none,Option.getD_none]
    cases hosts with
    | nil => rfl
    | cons h hosts =>
      -- the first host API is taken although it has no default device
      have hno : hasDefault h = false := by
        simpa using List.find?_eq_none.mp hfind (h,0) (by simp)
      have hnone : h.defaultInputDevice = paNoDevice := by
        simp only [hasDefault,Bool.or_eq_false_iff,decide_eq_false_iff_not,ne_eq,not_not] at hno
        exact hno.1
      have hrange : ¬ ((0 : Int) < 0 ∨ (0 : Int) ≥ (h :: hosts).length) := by
        rw [List.length_cons]
        omega
      rw [if_neg hrange,if_neg (Int.lt_irrefl 0),hlayout]
      change shifted h.defaultInputDevice _ = _
      rw [shifted,if_neg (not_not.mpr hnone),hnone]

/-- Without a default device a build without assertions takes the device with index 0,
whatever it is. -/
def lastResort (ndebug : Bool) (hosts : List HostApi) : Start :=
  if ndebug then
    match hosts.zipIdx.find? (fun q => !q.1.deviceInfos.isEmpty) with
    | some (_,i) => .opens i 0
    | none => .nullInfo
  else .assertion

theorem locate_first (hosts : List HostApi) : locate (segments hosts) 0 =
    (hosts.zipIdx.find? (fun q => !q.1.deviceInfos.isEmpty)).map (fun q => (q.2,0)) := by
  have hzero := locate_zero (segments hosts) 0
  simp only [Nat.zero_add,Prod.eta,Option.map_id_fun',id_eq] at hzero
  rw [hzero,segments,List.zipIdx_map,List.find?_map,Option.map_map]
  rfl

theorem openDevice_zero (hosts : List HostApi) :
    openDevice (ready hosts) 0 = lastResort true hosts := by
  have hfirst := locate_first hosts
  rw [lastResort,if_pos rfl]
  cases hfind : hosts.zipIdx.find? (fun q => !q.1.deviceInfos.isEmpty) with
  | some q =>
    obtain ⟨h,i⟩ := q
    have hh := List.mk_mem_zipIdx_iff_getElem?.mp (List.mem_of_find?_eq_some hfind)
    rw [hfind,Option.map_some] at hfirst
    obtain ⟨xs,hx,hk,hplace⟩ := segment_of_locate hfirst
    rw [segments_getElem? hh,Option.some.injEq] at hx
    subst xs
    have hopen := openDevice_index hh hk
    rw [index,← hplace] at hopen
    exact hopen
  | none =>
    have hnone := findHostApi_ready hosts 0
    rw [hfirst,hfind] at hnone
    have hzero : ¬ (0 : Int) = paNoDevice := by decide
    rw [openDevice,if_neg hzero,paGetDeviceInfo,← Int.natCast_zero,hnone]
    rfl

/-- What the recorder is to record from, in terms of host APIs and their own devices. -/
def recordChoice (ndebug : Bool) (hosts : List HostApi) : Start :=
  match hosts.zipIdx.find? (fun q => hostName == q.1.name) with
  | some (h,i) => recordDevice h i
  | none =>
    match hosts.zipIdx.find? (fun q => hasDefault q.1) with
    | some (h,i) =>
      if h.defaultInputDevice = paNoDevice then lastResort ndebug hosts
      else .opens i h.defaultInputDevice
    | none => lastResort ndebug hosts

theorem getRecordDevIndex_found (hfind : hosts.zipIdx.find? (fun q => hostName == q.1.name) =
    some (h,i)) (ndebug : Bool) :
    getRecordDevIndex ndebug (ready hosts) = some (chosen hosts h i) := by
  have hloop := hostLoop_ready hosts.length (Nat.zero_add hosts.length)
  rw [List.drop_zero,hfind,Option.map_some] at hloop
  have hcount : (paGetHostApiCount (ready hosts)).toNat = hosts.length := length_layout 0 hosts
  rw [getRecordDevIndex,hcount,hloop]

theorem getRecordDevIndex_default
    (hfind : hosts.zipIdx.find? (fun q => hostName == q.1.name) = none) (ndebug : Bool) :
    getRecordDevIndex ndebug (ready hosts) =
      if paGetDefaultInputDevice (ready hosts) < 0 then if ndebug then some 0 else none
      else some (paGetDefaultInputDevice (ready hosts)) := by
  have hloop := hostLoop_ready hosts.length (Nat.zero_add hosts.length)
  rw [List.drop_zero,hfind,Option.map_none] at hloop
  have hcount : (paGetHostApiCount (ready hosts)).toNat = hosts.length := length_layout 0 hosts
  rw [getRecordDevIndex,hcount,hloop]

/-- No default device: the assertion, or whatever has index 0. -/
theorem start_lastResort (ndebug : Bool) (hosts : List HostApi) :
    (match if ndebug then some 0 else none with
      | none => Start.assertion
      | some device => openDevice (ready hosts) device) = lastResort ndebug hosts := by
  cases ndebug with
  | false => rfl
  | true => exact openDevice_zero hosts

/-- The device of a recorder whose host APIs are up. -/
theorem start_ready (ndebug : Bool) (hosts : List HostApi) :
    (match getRecordDevIndex ndebug (ready hosts) with
      | none => Start.assertion
      | some device => openDevice (ready hosts) device) = recordChoice ndebug hosts := by
  unfold recordChoice
  cases hfind : hosts.zipIdx.find? (fun q => hostName == q.1.name) with
  | some q =>
    obtain ⟨h,i⟩ := q
    have hh := List.mk_mem_zipIdx_iff_getElem?.mp (List.mem_of_find?_eq_some hfind)
    rw [getRecordDevIndex_found hfind]
    exact openDevice_chosen hh
  | none =>
    rw [getRecordDevIndex_default hfind,paGetDefaultInputDevice_ready]
    cases hdefault : hosts.zipIdx.find? (fun q => hasDefault q.1) with
    | none => exact start_lastResort ndebug hosts
    | some q =>
      obtain ⟨h,i⟩ := q
      have hh := List.mk_mem_zipIdx_iff_getElem?.mp (List.mem_of_find?_eq_some hdefault)
      simp only [Option.map_some,Option.getD_some]
      by_cases hd : h.defaultInputDevice = paNoDevice
      · have hneg : shifted h.defaultInputDevice (segmentBase (segments hosts) i) < 0 := by
          rw [shifted,if_neg (not_not.mpr hd),hd]
          decide
        rw [if_pos hneg,if_pos hd]
        exact start_lastResort ndebug hosts
      · obtain ⟨k,hk,hlt,hshift⟩ := shifted_default hosts i hd
        rw [if_neg hd,hshift,if_neg (by omega : ¬ (index hosts i k : Int) < 0),hk]
        exact openDevice_index hh hlt

end

/-- For every outcome of the initializers: the recorder fails with the first error of
one of them; otherwise its way over the numbers of all devices ends at the device it is
to record from, and no index it passes on is refused. -/
theorem start_chooses (ndebug : Bool) (initializers : List (Int × Option HostApi)) :
    startRecording ndebug initializers =
      match initializers.find? (fun p => p.1 ≠ paNoError) with
      | some p => .failed p.1
      | none => recordChoice ndebug (initializers.filterMap Prod.snd) := by
  have hresult := paInitialize_result initializers
  cases hfind : initializers.find? (fun p => p.1 ≠ paNoError) with
  | some p =>
    rw [hfind] at hresult
    have hp : p.1 ≠ paNoError := by simpa using List.find?_some hfind
    unfold startRecording
    cases hinit : paInitialize boot initializers with
    | mk err f =>
      rw [hinit] at hresult
      obtain rfl : err = p.1 := hresult
      exact if_pos hp
  | none =>
    have hok : ∀ p ∈ initializers, p.1 = paNoError := by
      intro p hm
      simpa using List.find?_eq_none.mp hfind p hm
    rw [startRecording,paInitialize_ok hok]
    exact start_ready ndebug (initializers.filterMap Prod.snd)

theorem ready_of_ok {inits : List (Int × Option HostApi)} {f : Front}
    (h : paInitialize boot inits = (paNoError,f)) : f = ready (inits.filterMap Prod.snd) := by
  have hresult := paInitialize_result inits
  rw [h] at hresult
  have hok : ∀ p ∈ inits, p.1 = paNoError := by
    cases hfind : inits.find? (fun p => p.1 ≠ paNoError) with
    | none =>
      intro p hm
      simpa using List.find?_eq_none.mp hfind p hm
    | some p =>
      rw [hfind] at hresult
      have hp : p.1 ≠ paNoError := by simpa using List.find?_some hfind
      exact absurd hresult.symm hp
  rw [paInitialize_ok hok] at h
  exact (Prod.mk.inj h).2.symm

/-- The numbers of all devices and the pairs of a host API and one of its devices stand
for each other, and no other number finds anything. -/
theorem device_numbers {inits : List (Int × Option HostApi)} {f : Front}
    (h : paInitialize boot inits = (paNoError,f)) :
    (∀ (i k : Nat) host, (inits.filterMap Prod.snd)[i]? = some host →
      k < host.deviceInfos.length → ∃ d : Nat, paHostApiDeviceIndexToDeviceIndex f i k = d ∧
        (d : Int) < f.deviceCount ∧ findHostApi f d = some (i,(k : Int)) ∧
        paGetDeviceInfo f d = host.deviceInfos[k]?) ∧
    (∀ d : Int, 0 ≤ d → d < f.deviceCount → ∃ (i k : Nat) (host : HostApi),
      (inits.filterMap Prod.snd)[i]? = some host ∧ k < host.deviceInfos.length ∧
        findHostApi f d = some (i,(k : Int)) ∧ paHostApiDeviceIndexToDeviceIndex f i k = d) ∧
    ∀ d : Int, d < 0 ∨ d ≥ f.deviceCount →
      findHostApi f d = none ∧ paGetDeviceInfo f d = none := by
  rw [ready_of_ok h]
  generalize inits.filterMap Prod.snd = hosts
  refine ⟨?_,?_,?_⟩
  · intro i k host hh hk
    refine ⟨index hosts i k,deviceIndex_ready hh hk,?_,findHostApi_index hh hk,
      paGetDeviceInfo_index hh hk⟩
    exact Int.ofNat_lt.mpr (index_lt hh hk)
  · intro d hlow hhigh
    obtain ⟨n,rfl⟩ := Int.eq_ofNat_of_zero_le hlow
    have hin : ¬ (segments hosts).flatten.length ≤ n := Nat.not_le.mpr (Int.ofNat_lt.mp hhigh)
    obtain ⟨⟨i,k⟩,hlocate⟩ := Option.ne_none_iff_exists'.mp (mt locate_eq_none_iff.mp hin)
    obtain ⟨xs,hx,hk,hplace⟩ := segment_of_locate hlocate
    rw [segments,List.getElem?_map] at hx
    obtain ⟨host,hh,rfl⟩ := Option.map_eq_some_iff.mp hx
    refine ⟨i,k,host,hh,hk,?_,?_⟩
    · rw [findHostApi_ready,hlocate,Option.map_some]
    · rw [deviceIndex_ready hh hk,index,← hplace]
  · intro d hd
    have hnone : findHostApi (ready hosts) d = none := by
      rcases Int.lt_or_le d 0 with hneg | hpos
      · rw [findHostApi,if_pos hneg,ite_self]
      · obtain ⟨n,rfl⟩ := Int.eq_ofNat_of_zero_le hpos
        have hout : (segments hosts).flatten.length ≤ n := by
          rcases hd with hneg | hge
          · omega
          · exact Int.ofNat_le.mp hge
        rw [findHostApi_ready,locate_eq_none_iff.mpr hout,Option.map_none]
    exact ⟨hnone,by rw [paGetDeviceInfo,hnone]; rfl⟩

/-- A host API with one microphone and its default device. -/
def oneDevice (name : String) : HostApi where
  name := name
  deviceInfos := [⟨devName,2⟩]
  defaultInputDevice := 0
  defaultOutputDevice := -1
  input := .inr ⟨Int.le_refl 0,Int.zero_lt_one⟩
  output := .inl rfl

def twoHosts : List (Int × Option HostApi) :=
  [(0,some (oneDevice "MME")),(0,none),(0,some (oneDevice hostName))]

/-- The device of the second host API is number 1, and there is no number 2. -/
theorem device_numbers_two_hosts :
    ∃ f, paInitialize boot twoHosts = (paNoError,f) ∧
      (∃ d : Nat, paHostApiDeviceIndexToDeviceIndex f (1 : Nat) (0 : Nat) = d ∧
        findHostApi f d = some (1,0)) ∧ paGetDeviceInfo f 2 = none := by
  have hinit : paInitialize boot twoHosts = (paNoError,(paInitialize boot twoHosts).2) := rfl
  obtain ⟨hnumber,_,hnone⟩ := device_numbers hinit
  obtain ⟨d,hd,_,hfind,_⟩ := hnumber 1 0 (oneDevice hostName) rfl (Nat.zero_lt_one)
  exact ⟨_,hinit,⟨d,hd,hfind⟩,(hnone 2 (.inr (by decide))).2⟩

end WifiSpeaker.Proofs.DeviceChoice
