/-
  TCore.Mm.BufferTurns — when the loop of `translated_byte_buffer` ends (mm/page_table.rs, mm/address.rs).

  A turn truncates the cursor and the end of the range to 39 bits and extends the sign of what it makes of
  them. The loop compares the cursor with the end as the program has given it. So an end with other upper
  bits than those of an address is never reached: the cursor comes to stand where the two agree in their
  lower 39 bits, and from a cursor that is no address it goes back.
-/

import TCore.Mm.UserBuffer

namespace TCore.Mm

open PageTable
open Option VirtAddr

/-- The loop from the cursor `start` on ends, by returning or by a panic, and every turn moves the cursor up. -/
inductive Ends (mem : Memory) (pt : PageTable) (end_ : Nat) : Nat → Prop where
  | done {start : Nat} (h : end_ ≤ start) : Ends mem pt end_ start
  | refused {start : Nat} (h : start < end_) (hturn : bufferTurn mem pt start end_ = none) : Ends mem pt end_ start
  | turn {start next : Nat} {slice : List Given} (h : start < end_)
      (hturn : bufferTurn mem pt start end_ = some (slice, next)) (hup : start < next) (rest : Ends mem pt end_ next) :
      Ends mem pt end_ start

variable {mem : Memory} {pt : PageTable} {fuel start end_ next : Nat} {slice : List Given}

/-! ## Turns -/

/-- What a turn that moves the cursor up has to be shown for. -/
theorem Ends.of_next (hup : start < toUsize (turnEnd start end_))
    (hrest : Ends mem pt end_ (toUsize (turnEnd start end_))) : Ends mem pt end_ start := by
  by_cases hlt : start < end_
  · cases hturn : bufferTurn mem pt start end_ with
    | none => exact .refused hlt hturn
    | some x =>
      obtain ⟨slice, next⟩ := x
      have hnext := bufferTurn_next hturn
      subst hnext
      exact .turn hlt hturn hup hrest
  · exact .done (by omega)

/-- A turn that is made has moved the cursor up. -/
theorem Ends.step (h : Ends mem pt end_ start) (hlt : start < end_) (hturn : (bufferTurn mem pt start end_).isSome) :
    start < toUsize (turnEnd start end_) ∧ Ends mem pt end_ (toUsize (turnEnd start end_)) := by
  cases h with
  | done h => omega
  | refused _ hnone =>
    rw [hnone] at hturn
    cases hturn
  | turn _ hsome hup hrest =>
    rw [← bufferTurn_next hsome]
    exact ⟨hup, hrest⟩

/-- A loop that ends makes as many turns as it makes, however many it is let make. -/
theorem Ends.loop (h : Ends mem pt end_ start) :
    ∃ n, ∀ fuel, n ≤ fuel → bufferLoop mem pt fuel start end_ = bufferLoop mem pt n start end_ := by
  induction h with
  | done h => exact ⟨0, fun fuel _ => by rw [bufferLoop_done h, bufferLoop_done h]⟩
  | refused h hturn =>
    refine ⟨0, fun fuel _ => ?_⟩
    cases fuel with
    | zero => rfl
    | succ fuel => rw [bufferLoop, bufferLoop, if_pos h, if_pos h, hturn, bind_none]
  | turn h hturn _ _ ih =>
    obtain ⟨n, hn⟩ := ih
    refine ⟨n + 1, fun fuel hfuel => ?_⟩
    obtain ⟨m, rfl⟩ : ∃ m, fuel = m + 1 := ⟨fuel - 1, by omega⟩
    rw [bufferLoop, bufferLoop, if_pos h, if_pos h, hturn, bind_some, bind_some]
    dsimp only
    rw [hn m (by omega)]

/-! ## The two halves -/

/-- In the upper half the cursor goes up to the end. -/
theorem ends_high (hstart : 2 ^ 64 - 2 ^ 38 ≤ start) (hend : end_ < 2 ^ 64) : Ends mem pt end_ start := by
  obtain ⟨n, hn⟩ : ∃ n, end_ ≤ start + n := ⟨end_, by omega⟩
  induction n generalizing start with
  | zero => exact .done (by omega)
  | succ n ih =>
    by_cases hlt : start < end_
    · have hstop : start % 2 ^ 39 < turnEnd start end_ := by
        unfold turnEnd
        omega
      have hhalf : 2 ^ 38 ≤ turnEnd start end_ := by omega
      have hhigh := toUsize_high hhalf turnEnd_lt
      exact .of_next (by omega) (ih (by omega) (by omega))
    · exact .done (by omega)

/-- A turn into the upper half moves the cursor up, and the loop ends. -/
theorem ends_of_high (hend : end_ < 2 ^ 64) (hstop : 2 ^ 38 ≤ turnEnd start end_) : Ends mem pt end_ start := by
  by_cases hstart : 2 ^ 64 - 2 ^ 38 ≤ start
  · exact ends_high hstart hend
  · have hhigh := toUsize_high hstop turnEnd_lt
    exact .of_next (by omega) (ends_high (by omega) hend)

/-- From the lower half the cursor goes up to an end that is an address, or past the lower half. -/
theorem ends_low (hstart : start < 2 ^ 38) (hend : end_ < 2 ^ 64) (hle : start ≤ end_ % 2 ^ 39)
    (haddr : end_ < 2 ^ 39 ∨ 2 ^ 38 ≤ end_ % 2 ^ 39) : Ends mem pt end_ start := by
  obtain ⟨n, hn⟩ : ∃ n, 2 ^ 38 ≤ start + n := ⟨2 ^ 38, by omega⟩
  induction n generalizing start with
  | zero => omega
  | succ n ih =>
    by_cases hlt : start < end_
    · by_cases hstop : 2 ^ 38 ≤ turnEnd start end_
      · exact ends_of_high hend hstop
      · have hlow := toUsize_low (not_le.mp hstop)
        have hup : start < turnEnd start end_ := by
          unfold turnEnd at hstop ⊢
          omega
        have hle' : turnEnd start end_ ≤ end_ % 2 ^ 39 := Nat.min_le_right _ _
        refine .of_next (by omega) ?_
        rw [hlow]
        exact ih (by omega) hle' (by omega)
    · exact .done (by omega)

/-- To an end that agrees with an address of the lower half in 39 bits only, the cursor goes up unless there
is a table for every page on the way. -/
theorem ends_short_iff (hend : 2 ^ 39 ≤ end_) (hlow : end_ % 2 ^ 39 < 2 ^ 38) (hle : start ≤ end_ % 2 ^ 39) :
    Ends mem pt end_ start ↔
      ¬∀ v, start / 4096 ≤ v → v ≤ end_ % 2 ^ 39 / 4096 → (pt.translate mem v).isSome := by
  obtain ⟨n, hn⟩ : ∃ n, end_ % 2 ^ 39 = start + n := ⟨end_ % 2 ^ 39 - start, by omega⟩
  induction n using Nat.strong_induction_on generalizing start with
  | _ n ih =>
    have hlt : start < end_ := by omega
    have hmod : start % 2 ^ 39 = start := Nat.mod_eq_of_lt (by omega)
    have hstop : turnEnd start end_ = min ((start / 4096 + 1) * 4096) (end_ % 2 ^ 39) := by rw [turnEnd, hmod]
    have hhalf : turnEnd start end_ < 2 ^ 38 := by omega
    have hlow' := toUsize_low hhalf
    have hturn : (bufferTurn mem pt start end_).isSome ↔ (pt.translate mem (start / 4096)).isSome := by
      rw [bufferTurn_isSome_iff, hmod]
      exact and_iff_left (.inl (by omega))
    by_cases hsome : (pt.translate mem (start / 4096)).isSome
    · rcases Nat.eq_zero_or_pos n with rfl | hpos
      · -- the cursor is there, and the turn leaves it there
        refine ⟨fun h => ?_, fun h => ?_⟩
        · have hup := (h.step hlt (hturn.mpr hsome)).1
          omega
        · refine absurd ?_ h
          intro v hv hv'
          have heq : v = start / 4096 := by omega
          rw [heq]
          exact hsome
      · have hup : start < turnEnd start end_ := by omega
        have hrec : Ends mem pt end_ (turnEnd start end_) ↔
            ¬∀ v, turnEnd start end_ / 4096 ≤ v → v ≤ end_ % 2 ^ 39 / 4096 → (pt.translate mem v).isSome :=
          ih (end_ % 2 ^ 39 - turnEnd start end_) (by omega) (by omega) (by omega)
        refine ⟨fun h => ?_, fun h => ?_⟩
        · have hnext := (h.step hlt (hturn.mpr hsome)).2
          rw [hlow'] at hnext
          intro hall
          refine hrec.mp hnext ?_
          intro v hv hv'
          exact hall v (by omega) hv'
        · refine .of_next (by omega) ?_
          rw [hlow']
          refine hrec.mpr fun hall => h ?_
          intro v hv hv'
          by_cases heq : v = start / 4096
          · rw [heq]
            exact hsome
          · exact hall v (by omega) hv'
    · refine ⟨fun _ hall => hsome (hall _ (Nat.le_refl _) (by omega)), fun _ => ?_⟩
      have hnone : bufferTurn mem pt start end_ = none := by
        rw [← not_isSome_iff_eq_none, hturn]
        exact hsome
      exact .refused hlt hnone

/-! ## Every range -/

/-- The loop comes to a turn that does not move the cursor up. -/
def Stalls (mem : Memory) (pt : PageTable) (start end_ : Nat) : Prop :=
  start < end_ ∧
    if start < 2 ^ 38 ∧ start ≤ end_ % 2 ^ 39 then
      2 ^ 39 ≤ end_ ∧ end_ % 2 ^ 39 < 2 ^ 38 ∧
        ∀ v, start / 4096 ≤ v → v ≤ end_ % 2 ^ 39 / 4096 → (pt.translate mem v).isSome
    else turnEnd start end_ < 2 ^ 38 ∧ (pt.translate mem (start % 2 ^ 39 / 4096)).isSome ∧ Forward start end_

theorem ends_iff (hend : end_ < 2 ^ 64) : Ends mem pt end_ start ↔ ¬Stalls mem pt start end_ := by
  unfold Stalls
  by_cases hlt : start < end_
  · rw [and_iff_right hlt]
    by_cases hcase : start < 2 ^ 38 ∧ start ≤ end_ % 2 ^ 39
    · rw [if_pos hcase]
      by_cases haddr : end_ < 2 ^ 39 ∨ 2 ^ 38 ≤ end_ % 2 ^ 39
      · refine iff_of_true (ends_low hcase.1 hend hcase.2 haddr) ?_
        rintro ⟨h, h', -⟩
        omega
      · rw [not_or, not_lt, not_le] at haddr
        rw [ends_short_iff haddr.1 haddr.2 hcase.2, and_iff_right haddr.1, and_iff_right haddr.2]
    · rw [if_neg hcase, ← bufferTurn_isSome_iff]
      by_cases hstop : 2 ^ 38 ≤ turnEnd start end_
      · exact iff_of_true (ends_of_high hend hstop) fun h => absurd h.1 (not_lt.mpr hstop)
      · have hlow := toUsize_low (not_le.mp hstop)
        refine ⟨fun h hstall => ?_, fun h => ?_⟩
        · -- the turn ends in the lower half, below the cursor
          have hup := (h.step hlt hstall.2).1
          have hle : turnEnd start end_ ≤ end_ % 2 ^ 39 := Nat.min_le_right _ _
          omega
        · refine .refused hlt ?_
          rw [← not_isSome_iff_eq_none]
          exact fun hsome => h ⟨not_le.mp hstop, hsome⟩
  · exact iff_of_true (.done (by omega)) fun h => hlt h.1

/-- `translated_byte_buffer` of any pointer and any length: the cursor goes up in every turn and comes to the end,
but for the ranges that lead to such an address by way of pages with tables. -/
theorem buffer_ends_iff (mem : Memory) (token : Nat) (ptr len : BitVec 64) :
    Ends mem (fromToken token) ((ptr.toNat + len.toNat) % 2 ^ 64) ptr.toNat ↔
      ¬Stalls mem (fromToken token) ptr.toNat ((ptr.toNat + len.toNat) % 2 ^ 64) :=
  ends_iff (Nat.mod_lt _ (by decide))

/-- A range of 2^39 bytes from within a mapped page. Every turn takes an empty slice there. -/
theorem buffer_stands_still :
    ¬Ends twoPages (fromToken (8 <<< 60 ||| 16)) ((4100 + 2 ^ 39) % 2 ^ 64) 4100 ∧
      ∀ fuel, translatedByteBuffer twoPages fuel (8 <<< 60 ||| 16) 4100 (2 ^ 39) = none := by
  have hturn : bufferTurn twoPages (fromToken (8 <<< 60 ||| 16)) 4100 ((4100 + 2 ^ 39) % 2 ^ 64) = some ([], 4100) := by
    decide +kernel
  refine ⟨fun h => ?_, fun fuel => ?_⟩
  · have hup := (h.step (by decide) (by rw [hturn]; rfl)).1
    rw [← bufferTurn_next hturn] at hup
    exact absurd hup (Nat.lt_irrefl _)
  · rw [translatedByteBuffer]
    induction fuel with
    | zero => rw [bufferLoop, if_pos (by decide)]
    | succ fuel ih =>
      rw [bufferLoop, if_pos (by decide), hturn, bind_some]
      dsimp only
      rw [ih, map_none]

end TCore.Mm
