import FreshCore.Audio.AlsaInotify
import FreshCore.Octets.LittleEndian

/-!
# The bytes of the inotify queue

`read` fills a buffer with events of different lengths, and the loop goes from header to
header by the lengths in them. On what the kernel writes it comes to each event once and stops
at the end, so that it does what handling the events one at a time does.
-/

namespace FreshCore.MicFixer

open Posix Octets

/-- `inotify_event` -/
structure RawEvent where
  wd : UInt32
  mask : UInt32
  cookie : UInt32 := 0
  /-- The name and its padding; its length is the field `len`. -/
  name : Bytes := []
  deriving DecidableEq, Repr

def headerSize : Nat := 16

/-- The event as the kernel writes it. -/
def RawEvent.bytes (event : RawEvent) : Bytes :=
  le32 event.wd ++ le32 event.mask ++ le32 event.cookie ++ le32 (.ofNat event.name.length) ++
    event.name

def maskOf (buffer : Bytes) : UInt32 := read32 (slice buffer 4 4)

def lenOf (buffer : Bytes) : UInt32 := read32 (slice buffer 12 4)

/-- The count after an event, and the routines that ran until then. -/
def countEvent (s : Int × List Routine) (mask : UInt32) : Int × List Routine :=
  let (streamCount, routines) := handleEvent s.1 mask
  (streamCount, s.2 ++ routines)

/-- The loop over the bytes that `read` returned, from `ptr` on. There is no result if a header
is read past their end. -/
def walkBuffer (s : Int × List Routine) (buffer : Bytes) : Option (Int × List Routine) :=
  if _hend : buffer = [] then some s
  else if buffer.length < headerSize then none
  else walkBuffer (countEvent s (maskOf buffer)) (buffer.drop (headerSize + (lenOf buffer).toNat))
termination_by buffer.length
decreasing_by
  have hpos : 0 < buffer.length := List.length_pos_iff.mpr _hend
  simp only [List.length_drop, headerSize]
  omega

/-! ## One event -/

section Fields

variable (event : RawEvent) (rest : Bytes)

theorem RawEvent.length_bytes : event.bytes.length = headerSize + event.name.length := by
  simp [bytes, headerSize]
  omega

theorem maskOf_bytes : maskOf (event.bytes ++ rest) = event.mask := by
  have hslice : slice (event.bytes ++ rest) 4 4 = le32 event.mask := by
    simp only [slice, RawEvent.bytes, List.append_assoc]
    rw [List.drop_left' (length_le32 _), List.take_left' (length_le32 _)]
  rw [maskOf, hslice, read32_le32]

theorem lenOf_bytes : lenOf (event.bytes ++ rest) = .ofNat event.name.length := by
  have hslice : slice (event.bytes ++ rest) 12 4 = le32 (.ofNat event.name.length) := by
    have hfront : (le32 event.wd ++ le32 event.mask ++ le32 event.cookie).length = 12 := by simp
    simp only [slice, RawEvent.bytes]
    rw [List.append_assoc _ event.name, List.append_assoc _ _ (event.name ++ rest),
      List.drop_left' hfront, List.take_left' (length_le32 _)]
  rw [lenOf, hslice, read32_le32]

end Fields

/-- A step from one event to the next, whatever stands behind it. -/
theorem walkBuffer_event {event : RawEvent} (hfits : event.name.length < 2 ^ 32)
    (s : Int × List Routine) (rest : Bytes) :
    walkBuffer s (event.bytes ++ rest) = walkBuffer (countEvent s event.mask) rest := by
  have hlength : headerSize ≤ (event.bytes ++ rest).length := by
    rw [List.length_append, event.length_bytes]
    omega
  have hne : event.bytes ++ rest ≠ [] := by
    rw [← List.length_pos_iff]
    exact Nat.lt_of_lt_of_le (by decide) hlength
  have hlen : (lenOf (event.bytes ++ rest)).toNat = event.name.length := by
    rw [lenOf_bytes, UInt32.toNat_ofNat_of_lt' hfits]
  rw [walkBuffer, dif_neg hne, if_neg (Nat.not_lt.mpr hlength), maskOf_bytes, hlen,
    ← event.length_bytes, List.drop_left]

/-- The loop comes to each event of the buffer, in their order, and to nothing else. -/
theorem walkBuffer_events {events : List RawEvent}
    (hfits : ∀ event ∈ events, event.name.length < 2 ^ 32) (s : Int × List Routine) :
    walkBuffer s (events.flatMap RawEvent.bytes) =
      some ((events.map RawEvent.mask).foldl countEvent s) := by
  induction events generalizing s with
  | nil => simp [walkBuffer]
  | cons event rest ih =>
      rw [List.forall_mem_cons] at hfits
      rw [List.flatMap_cons, walkBuffer_event hfits.1, ih hfits.2]
      rfl

/-! ## A whole buffer -/

/-- The event of a watched file, which has no name; `wd` numbers the watches. -/
def rawEvent (wd : Bytes → UInt32) (event : InotifyEvent) : RawEvent where
  wd := wd event.device
  mask := event.mask

/-- The bytes of the events that were read. -/
def AlsaState.bufferBytes (wd : Bytes → UInt32) (s : AlsaState) : Bytes :=
  s.buffer.flatMap fun event => (rawEvent wd event).bytes

theorem AlsaState.length_bufferBytes (wd : Bytes → UInt32) (s : AlsaState) :
    (s.bufferBytes wd).length = headerSize * s.buffer.length := by
  unfold bufferBytes
  induction s.buffer with
  | nil => rfl
  | cons event rest ih =>
      rw [List.flatMap_cons, List.length_append, ih, RawEvent.length_bytes, List.length_cons]
      exact Nat.add_comm _ _

/-- What is read fits into the buffer. -/
theorem AlsaState.length_read {watches : Bytes → Bool} {s s' : AlsaState}
    (h : s.step watches .read = some s') (wd : Bytes → UInt32) :
    (s'.bufferBytes wd).length ≤ 4096 := by
  rw [length_bufferBytes]
  rw [AlsaState.step] at h
  split at h
  · cases h
    have htake : (s.queue.take eventsPerRead).length ≤ eventsPerRead := List.length_take_le ..
    exact Nat.mul_le_mul_left headerSize htake
  · cases h

theorem AlsaState.walkBuffer_bufferBytes (wd : Bytes → UInt32) (s : AlsaState)
    (count : Int × List Routine) :
    walkBuffer count (s.bufferBytes wd) =
      some ((s.buffer.map InotifyEvent.mask).foldl countEvent count) := by
  have hbytes : s.bufferBytes wd = (s.buffer.map (rawEvent wd)).flatMap RawEvent.bytes := by
    rw [List.flatMap_map]
    rfl
  rw [hbytes, walkBuffer_events (by simp [rawEvent]), List.map_map]
  rfl

theorem foldl_countEvent (masks : List UInt32) (streamCount : Int) (routines : List Routine) :
    masks.foldl countEvent (streamCount, routines) =
      ((masks.foldl countEvent (streamCount, [])).1,
        routines ++ (masks.foldl countEvent (streamCount, [])).2) := by
  induction masks generalizing streamCount routines with
  | nil => simp
  | cons mask rest ih =>
      rw [List.foldl_cons, List.foldl_cons, countEvent, countEvent, ih, ih _ ([] ++ _)]
      simp

/-- On the bytes of any number of events the loop counts and runs what handling them one at a
time does, and it does not read past them. -/
theorem AlsaState.walkBuffer_handles (watches : Bytes → Bool) (wd : Bytes → UInt32)
    (s : AlsaState) :
    ∃ s' new, runFrom watches (fun _ _ => true) s
        (List.replicate s.buffer.length .handle) = some s' ∧
      s'.opened = s.opened ∧ s'.queue = s.queue ∧ s'.buffer = [] ∧
      s'.handled = s.handled ++ new ∧ new.map Prod.fst = s.buffer ∧
      walkBuffer (s.streamCount, []) (s.bufferBytes wd) =
        some (s'.streamCount, new.flatMap Prod.snd) := by
  rw [s.walkBuffer_bufferBytes]
  generalize hbuffer : s.buffer = buffer
  induction buffer generalizing s with
  | nil => exact ⟨s, [], rfl, rfl, rfl, hbuffer, (List.append_nil _).symm, rfl, rfl⟩
  | cons event rest ih =>
      obtain ⟨s', new, hrun, hopened, hqueue, hdone, hhandled, hnew, hwalk⟩ :=
        ih { s with
          buffer := rest
          streamCount := (handleEvent s.streamCount event.mask).1
          handled := s.handled ++ [(event, (handleEvent s.streamCount event.mask).2)] } rfl
      refine ⟨s', (event, (handleEvent s.streamCount event.mask).2) :: new, ?_, hopened, hqueue,
        hdone, ?_, ?_, ?_⟩
      · rw [List.length_cons, List.replicate_succ, runFrom, List.foldlM_cons]
        simp only [AlsaState.step, hbuffer, if_true, Option.bind_eq_bind, Option.bind_some]
        exact hrun
      · rw [hhandled]
        simp
      · rw [List.map_cons, hnew]
      · rw [List.map_cons, List.foldl_cons, countEvent]
        dsimp only
        rw [foldl_countEvent, Option.some.inj hwalk]
        simp

end FreshCore.MicFixer
