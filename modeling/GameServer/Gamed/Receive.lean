/-
  The receive loop of gamed: `gated_read_cb` of `src/gamed.c`.

  The loop empties the input buffer of the gated connection in rounds of at most
  `sizeof(buff)` bytes. It ends for every input, and the rounds carry all bytes in order. The
  array is cleared after a round, so a round that does not fill it leaves a NUL behind its
  bytes; one that fills it leaves only the NULs that were sent. So every `printf` finds a NUL
  in the array if and only if every full piece of the input brings one
  (`receives_all_iff`).
-/
import GameServer.Lib.LuaState

namespace GameServer.Gamed

open Lua

/-- `sizeof(buff)` -/
def sizeofBuff : Nat := 1024

/-- `char buff[1024]` -/
structure Buff where
  bytes : Bytes
  size : bytes.length = sizeofBuff

/-- The array after its initialisation, and after `memset`. -/
def Buff.cleared : Buff := ⟨List.replicate sizeofBuff 0, List.length_replicate⟩

/-- `evbuffer_remove(input, buff, sizeof(buff))`: the number of bytes moved, the array and
    the input behind it. -/
def evbufferRemove (input : Bytes) (buff : Buff) : Nat × Buff × Bytes :=
  (min sizeofBuff input.length,
    ⟨input.take sizeofBuff ++ buff.bytes.drop (min sizeofBuff input.length), by
      rw [List.length_append, List.length_take, List.length_drop, buff.size]
      omega⟩,
    input.drop sizeofBuff)

/-- One time round the loop: the bytes moved, and the array that `printf` is given. -/
structure Round where
  moved : Nat
  buff : Buff

/-- The bytes copied into the array. -/
def Round.contents (r : Round) : Bytes := r.buff.bytes.take r.moved

/-- The array holds a NUL, at which `printf("%s", buff)` stops. -/
def Round.Terminated (r : Round) : Prop := (0 : UInt8) ∈ r.buff.bytes

/-- What `printf` prints for `buff`, unless it reads on behind the array. -/
def Round.printed (r : Round) : Option Bytes :=
  if (0 : UInt8) ∈ r.buff.bytes then some (cString r.buff.bytes) else none

/-- The loop, at most `fuel` tests of its condition: the rounds and the input left. -/
def gatedReadLoop : Nat → Bytes → Buff → Option (List Round × Bytes)
  | 0, _, _ => none
  | fuel + 1, input, buff =>
    if input.length > 0 then
      let (moved, buff, input) := evbufferRemove input buff
      (gatedReadLoop fuel input .cleared).map fun (rounds, rest) => (⟨moved, buff⟩ :: rounds, rest)
    else some ([], input)

/-- `gated_read_cb` -/
def gatedReadCb (fuel : Nat) (input : Bytes) : Option (List Round × Bytes) :=
  gatedReadLoop fuel input .cleared

/-- The loop ends with the input empty, its rounds carry the pending bytes in order, and each
    of them leaves a NUL in the array. -/
def ReceivesAll (pending : Bytes) : Prop :=
  ∃ rounds, (∀ fuel, pending.length < fuel → gatedReadCb fuel pending = some (rounds, [])) ∧
    (rounds.map Round.contents).flatten = pending ∧ ∀ r ∈ rounds, r.Terminated

/-- Every full piece of 1024 bytes, counted from the first byte, has a NUL among them. -/
def FullPiecesTerminated (pending : Bytes) : Prop :=
  ∀ i, (i + 1) * sizeofBuff ≤ pending.length →
    (0 : UInt8) ∈ (pending.drop (i * sizeofBuff)).take sizeofBuff

/-! ## One round -/

/-- The round in which `input` is pending. -/
def firstRound (input : Bytes) : Round :=
  ⟨(evbufferRemove input .cleared).1, (evbufferRemove input .cleared).2.1⟩

theorem firstRound_contents (input : Bytes) :
    (firstRound input).contents = input.take sizeofBuff := by
  show (input.take sizeofBuff ++ _).take (min sizeofBuff input.length) = _
  rw [← List.length_take, List.take_left]

/-- A round that does not fill the array leaves a NUL of the cleared one. -/
theorem firstRound_terminated_iff (input : Bytes) :
    (firstRound input).Terminated ↔
      (sizeofBuff ≤ input.length → (0 : UInt8) ∈ input.take sizeofBuff) := by
  show (0 : UInt8) ∈ input.take sizeofBuff ++
    (List.replicate sizeofBuff 0).drop (min sizeofBuff input.length) ↔ _
  rw [List.mem_append, List.drop_replicate, List.mem_replicate]
  by_cases hfull : sizeofBuff ≤ input.length
  · have hzero : sizeofBuff - min sizeofBuff input.length = 0 := by omega
    simp [hfull]
  · have hroom : sizeofBuff - min sizeofBuff input.length ≠ 0 := by omega
    simp [hroom, hfull]

/-- The pieces of the input are the first one and those of the rest. -/
theorem fullPieces_step (input : Bytes) :
    FullPiecesTerminated input ↔
      (sizeofBuff ≤ input.length → (0 : UInt8) ∈ input.take sizeofBuff) ∧
        FullPiecesTerminated (input.drop sizeofBuff) := by
  have hsucc (i : Nat) : (i + 1) * sizeofBuff = i * sizeofBuff + sizeofBuff := Nat.succ_mul ..
  have hpos : 0 < sizeofBuff := by decide
  have hpiece (i : Nat) : (input.drop sizeofBuff).drop (i * sizeofBuff) =
      input.drop ((i + 1) * sizeofBuff) := by
    rw [List.drop_drop, hsucc, Nat.add_comm]
  unfold FullPiecesTerminated
  constructor
  · intro hall
    refine ⟨fun hfull => ?_, fun i hi => ?_⟩
    · simpa using hall 0 (by rw [hsucc]; omega)
    · rw [List.length_drop] at hi
      rw [hpiece]
      rw [hsucc] at hi
      exact hall (i + 1) (by rw [hsucc, hsucc]; omega)
  · rintro ⟨hfirst, hrest⟩ i hi
    cases i with
    | zero => simpa using hfirst (by rw [hsucc] at hi; omega)
    | succ i =>
      rw [← hpiece]
      exact hrest i (by rw [List.length_drop]; rw [hsucc] at hi; omega)

/-! ## All rounds -/

/-- The loop on `input`, whatever its length. The induction is on the length, which every
    round lowers. -/
theorem gatedReadCb_rounds (input : Bytes) :
    ∃ rounds, (∀ fuel, input.length < fuel → gatedReadCb fuel input = some (rounds, [])) ∧
      (rounds.map Round.contents).flatten = input ∧
      ((∀ r ∈ rounds, r.Terminated) ↔ FullPiecesTerminated input) := by
  induction hlen : input.length using Nat.strong_induction_on generalizing input with
  | h len ih =>
    by_cases hempty : input = []
    · subst hempty
      refine ⟨[], fun fuel hfuel => ?_, rfl, ?_⟩
      · cases fuel with
        | zero => omega
        | succ fuel => rfl
      · simp [FullPiecesTerminated, sizeofBuff]
    · have hpos : 0 < input.length := List.length_pos_iff.2 hempty
      have hless : (input.drop sizeofBuff).length < len := by
        rw [List.length_drop, ← hlen]
        unfold sizeofBuff
        omega
      obtain ⟨rounds, hruns, hflat, hterm⟩ := ih _ hless (input.drop sizeofBuff) rfl
      refine ⟨firstRound input :: rounds, fun fuel hfuel => ?_, ?_, ?_⟩
      · cases fuel with
        | zero => omega
        | succ fuel =>
          have hrest := hruns fuel (by omega)
          unfold gatedReadCb at hrest ⊢
          rw [gatedReadLoop, if_pos hpos]
          show (gatedReadLoop fuel (input.drop sizeofBuff) .cleared).map _ = _
          rw [hrest]
          rfl
      · rw [List.map_cons, List.flatten_cons, firstRound_contents, hflat, List.take_append_drop]
      · rw [List.forall_mem_cons, hterm, firstRound_terminated_iff, fullPieces_step input]

/-- For every input: the callback receives all of it and prints nothing behind the array if
    and only if every full piece of 1024 bytes contains a NUL. -/
theorem receives_all_iff (pending : Bytes) :
    ReceivesAll pending ↔ FullPiecesTerminated pending := by
  obtain ⟨rounds, hruns, hflat, hterm⟩ := gatedReadCb_rounds pending
  constructor
  · rintro ⟨rounds', hruns', -, hterm'⟩
    have hsame := (hruns _ (Nat.lt_succ_self _)).symm.trans (hruns' _ (Nat.lt_succ_self _))
    obtain rfl : rounds = rounds' := by simpa using hsame
    exact hterm.1 hterm'
  · exact fun hfull => ⟨rounds, hruns, hflat, hterm.2 hfull⟩

/-- As many bytes `a` as the array holds. -/
def fullInput : Bytes := List.replicate sizeofBuff 97

/-- The array is full, and `printf` reads on behind it. -/
theorem full_array_unterminated :
    (firstRound fullInput).printed = none ∧ ¬ ReceivesAll fullInput := by
  have hlen : fullInput.length = sizeofBuff := List.length_replicate
  have htake : fullInput.take sizeofBuff = fullInput := List.take_of_length_le (Nat.le_of_eq hlen)
  have hno : (0 : UInt8) ∉ fullInput.take sizeofBuff := by
    rw [htake, fullInput, List.mem_replicate]
    decide
  refine ⟨if_neg fun hterm => ?_, fun hall => ?_⟩
  · exact hno ((firstRound_terminated_iff _).1 hterm (Nat.le_of_eq hlen.symm))
  · exact hno ((fullPieces_step _).1 ((receives_all_iff _).1 hall) |>.1 (Nat.le_of_eq hlen.symm))

end GameServer.Gamed
