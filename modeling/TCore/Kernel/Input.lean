/-
  TCore.Kernel.Input — events of the keyboard and of the mouse, from the device to a program (drivers/input,
  syscall/input.rs, user/src/io.rs).

  `handle_irq` packs the three fields of an event into a `u64` and queues it, `sys_event_get` takes the first of
  the keyboard's or else of the mouse's and returns it as an `isize`, and `event_get` of the user library unpacks
  it. No bit is lost on the way, but 0 is what the call returns when both queues are empty, and an event whose
  fields are all 0 is packed into 0. Devices send such an event after each group of events (EV_SYN).

  Interrupts come between the steps of a call; another call does not, as the kernel is not preempted. Each call
  is recorded with what it has returned and what it has taken from a queue.

  - `sync_event_lost`: an event is taken, and the program is told that there is none.
-/

import TCore.Lib.Machine

namespace TCore.Kernel

open TCore.Lib
open Function (update_self update_of_ne update)
open List

structure InputEvent where
  eventType : BitVec 16
  code : BitVec 16
  value : BitVec 32
  deriving DecidableEq

namespace InputEvent

/-- The number that `handle_irq` queues. -/
def pack (e : InputEvent) : BitVec 64 :=
  e.eventType.setWidth 64 <<< 48 ||| e.code.setWidth 64 <<< 32 ||| e.value.setWidth 64

/-- `InputEvent::from(u64)`. -/
def fromU64 (v : BitVec 64) : InputEvent :=
  let value := v.setWidth 32
  let v := v >>> 32
  let code := v.setWidth 16
  let v := v >>> 16
  ⟨v.setWidth 16, code, value⟩

def zero : InputEvent := ⟨0, 0, 0⟩

end InputEvent

/-- What `event_get` makes of the number that the call has returned. -/
def eventGet (rawValue : BitVec 64) : Option InputEvent := if rawValue = 0 then none else some (.fromU64 rawValue)

inductive InputDevice where
  | keyboard
  | mouse
  deriving DecidableEq

/-- The events of a device that the driver has not fetched yet, and its queue. -/
structure VirtIOInput where
  pending : List InputEvent
  events : List (BitVec 64)

/-- Every pending event is popped and queued. -/
def VirtIOInput.handleIrq (d : VirtIOInput) : VirtIOInput := ⟨[], d.events ++ d.pending.map InputEvent.pack⟩

/-- Where a program is in `sys_event_get`. -/
inductive EventGetAt where
  | user
  | isEmpty
  | readEvent (d : InputDevice)
  /-- The keyboard's queue was empty, and `queued` events were in the mouse's. -/
  | mouseIsEmpty (queued : Nat)

/-- What a call has returned, and the event it has taken. A call that has taken none has found `queued` events when
    it looked at the keyboard. -/
structure Got where
  value : Option InputEvent
  source : Option (InputDevice × InputEvent)
  queued : Nat
  deriving DecidableEq

structure Inputs where
  dev : InputDevice → VirtIOInput
  call : EventGetAt
  /-- All events `handle_irq` has queued so far. -/
  queued : InputDevice → List InputEvent
  got : List Got

inductive InputStep where
  /-- The device has an event. -/
  | report (d : InputDevice) (e : InputEvent)
  | irq (d : InputDevice)
  /-- A program calls `event_get`. -/
  | call
  | goOn

namespace Inputs

/-- `read_event` takes the first number of the queue, and the call returns it. -/
def readEvent (s : Inputs) (d : InputDevice) : Option Inputs :=
  match (s.dev d).events with
  | v :: rest => some { s with
      dev := Function.update s.dev d { s.dev d with events := rest }
      call := .user
      got := s.got ++ [⟨eventGet v, some (d, .fromU64 v), 0⟩] }
  | [] => none

def goOn (s : Inputs) : Option Inputs :=
  match s.call with
  | .user => none
  | .isEmpty =>
    if (s.dev .keyboard).events ≠ [] then some { s with call := .readEvent .keyboard }
    else some { s with call := .mouseIsEmpty (s.dev .mouse).events.length }
  | .mouseIsEmpty queued =>
    if (s.dev .mouse).events ≠ [] then some { s with call := .readEvent .mouse }
    else some { s with call := .user, got := s.got ++ [⟨eventGet 0, none, queued⟩] }
  | .readEvent d => s.readEvent d

def step (s : Inputs) : InputStep → Option Inputs
  | .report d e => some { s with dev := Function.update s.dev d { s.dev d with pending := (s.dev d).pending ++ [e] } }
  | .irq d => some { s with
      dev := Function.update s.dev d (s.dev d).handleIrq
      queued := Function.update s.queued d (s.queued d ++ (s.dev d).pending) }
  | .call => match s.call with
    | .user => some { s with call := .isEmpty }
    | _ => none
  | .goOn => s.goOn

/-- The events of a device that calls have taken. -/
def taken (s : Inputs) (d : InputDevice) : List InputEvent :=
  (s.got.filterMap Got.source).filterMap fun x => if x.1 = d then some x.2 else none

end Inputs

def inputs : Machine Inputs InputStep where
  init s := s = ⟨fun _ => ⟨[], []⟩, .user, fun _ => [], []⟩
  step := Inputs.step

/-! ## Packing -/

namespace InputEvent

theorem getLsbD_pack (e : InputEvent) {i : Nat} (hi : i < 64) : e.pack.getLsbD i =
    if i < 32 then e.value.getLsbD i else if i < 48 then e.code.getLsbD (i - 32) else e.eventType.getLsbD (i - 48) := by
  have hv : ∀ j, 32 ≤ j → e.value.getLsbD j = false := fun j hj => BitVec.getLsbD_of_ge _ _ hj
  have hc : ∀ j, 16 ≤ j → e.code.getLsbD j = false := fun j hj => BitVec.getLsbD_of_ge _ _ hj
  unfold pack
  simp only [BitVec.getLsbD_or, BitVec.getLsbD_shiftLeft, BitVec.getLsbD_setWidth, hi, decide_true, Bool.true_and]
  split
  · rename_i h
    simp [h, show i < 48 by omega]
  · rename_i h
    rw [hv i (by omega)]
    split
    · rename_i h'
      simp [h, h', show i - 32 < 64 by omega]
    · rename_i h'
      rw [hc (i - 32) (by omega)]
      simp [h', show i - 48 < 64 by omega]

/-- No bit is lost. -/
theorem fromU64_pack (e : InputEvent) : fromU64 e.pack = e := by
  obtain ⟨t, c, v⟩ := e
  unfold fromU64
  rw [InputEvent.mk.injEq]
  refine ⟨?_, ?_, ?_⟩
  · apply BitVec.eq_of_getLsbD_eq
    intro i hi
    simp only [BitVec.getLsbD_setWidth, BitVec.getLsbD_ushiftRight, hi, decide_true, Bool.true_and]
    rw [getLsbD_pack _ (by omega), if_neg (by omega), if_neg (by omega), show 32 + (16 + i) - 48 = i by omega]
  · apply BitVec.eq_of_getLsbD_eq
    intro i hi
    simp only [BitVec.getLsbD_setWidth, BitVec.getLsbD_ushiftRight, hi, decide_true, Bool.true_and]
    rw [getLsbD_pack _ (by omega), if_neg (by omega), if_pos (by omega), Nat.add_sub_cancel_left]
  · apply BitVec.eq_of_getLsbD_eq
    intro i hi
    simp only [BitVec.getLsbD_setWidth, hi, decide_true, Bool.true_and]
    rw [getLsbD_pack _ (by omega), if_pos hi]

theorem pack_eq_zero {e : InputEvent} : e.pack = 0 ↔ e = zero := by
  constructor
  · intro h
    rw [← fromU64_pack e, h]
    decide
  · intro h
    rw [h]
    decide

end InputEvent

theorem eventGet_pack (e : InputEvent) : eventGet e.pack = if e = .zero then none else some e := by
  unfold eventGet
  simp only [InputEvent.pack_eq_zero, InputEvent.fromU64_pack]

/-! ## Runs -/

namespace Inputs

open InputEvent

variable {s s' : Inputs} {d d' : InputDevice} {e : InputStep}

structure Inv (s : Inputs) : Prop where
  order : ∀ d, ∃ rest, (s.dev d).events = rest.map pack ∧ s.queued d = s.taken d ++ rest
  values : ∀ g ∈ s.got, ∀ d e, g.source = some (d, e) → g.value = eventGet e.pack
  nothing : ∀ g ∈ s.got, g.source = none → g.value = none ∧ g.queued = 0
  looked : ∀ n, s.call = .mouseIsEmpty n → n ≤ (s.dev .mouse).events.length

theorem inv_start : Inv ⟨fun _ => ⟨[], []⟩, .user, fun _ => [], []⟩ where
  order _ := ⟨[], rfl, rfl⟩
  values _ hg := absurd hg not_mem_nil
  nothing _ hg := absurd hg not_mem_nil
  looked n hn := by cases hn

/-- A step that leaves the queues and the results alone. -/
theorem Inv.same (h : Inv s) (hevents : ∀ d, (s'.dev d).events = (s.dev d).events) (hqueued : s'.queued = s.queued)
    (hgot : s'.got = s.got) (hlooked : ∀ n, s'.call = .mouseIsEmpty n → n ≤ (s'.dev .mouse).events.length) : Inv s' := by
  refine ⟨?_, hgot ▸ h.values, hgot ▸ h.nothing, hlooked⟩
  intro d
  obtain ⟨rest, hrest, horder⟩ := h.order d
  refine ⟨rest, (hevents d).trans hrest, ?_⟩
  unfold taken at horder ⊢
  rw [hqueued, hgot]
  exact horder

theorem Inv.irq (h : Inv s) (hs : s.step (.irq d) = some s') : Inv s' := by
  cases hs
  refine ⟨?_, h.values, h.nothing, ?_⟩
  · intro d'
    obtain ⟨rest, hrest, horder⟩ := h.order d'
    dsimp only
    by_cases hd : d' = d
    · subst hd
      refine ⟨rest ++ (s.dev d').pending, ?_, ?_⟩
      · rw [update_self, map_append, ← hrest]
        rfl
      · rw [update_self, horder, append_assoc]
        rfl
    · rw [update_of_ne hd, update_of_ne hd]
      exact ⟨rest, hrest, horder⟩
  · intro n hn
    have hlen := h.looked n hn
    dsimp only
    by_cases hd : InputDevice.mouse = d
    · subst hd
      rw [update_self, VirtIOInput.handleIrq, length_append]
      omega
    · rw [update_of_ne hd]
      exact hlen

theorem taken_append {got : List Got} (hgot : s'.got = s.got ++ got) :
    s'.taken d = s.taken d ++ (got.filterMap Got.source).filterMap fun x => if x.1 = d then some x.2 else none := by
  unfold taken
  rw [hgot, filterMap_append, filterMap_append]

theorem Inv.readEvent (h : Inv s) (hs : s.readEvent d = some s') : Inv s' := by
  unfold Inputs.readEvent at hs
  split at hs
  · rename_i v tail hevents
    cases hs
    obtain ⟨rest, hrest, horder⟩ := h.order d
    rw [hevents] at hrest
    obtain ⟨x, rest, rfl, rfl, rfl⟩ := map_eq_cons_iff.mp hrest.symm
    rw [fromU64_pack]
    refine ⟨?_, ?_, ?_, ?_⟩
    · intro d'
      rw [taken_append rfl]
      dsimp only
      by_cases hd : d' = d
      · subst hd
        refine ⟨rest, by rw [update_self], ?_⟩
        rw [horder, append_assoc]
        simp
      · obtain ⟨rest', hrest', horder'⟩ := h.order d'
        refine ⟨rest', by rw [update_of_ne hd, hrest'], ?_⟩
        rw [horder']
        simp [Ne.symm hd]
    · intro g hg d' e hsource
      rcases mem_append.mp hg with hg | hg
      · exact h.values g hg d' e hsource
      · rw [mem_singleton.mp hg] at hsource ⊢
        cases hsource
        rfl
    · intro g hg hsource
      rcases mem_append.mp hg with hg | hg
      · exact h.nothing g hg hsource
      · rw [mem_singleton.mp hg] at hsource
        cases hsource
    · intro n hn
      cases hn
  · cases hs

theorem Inv.goOn (h : Inv s) (hs : s.goOn = some s') : Inv s' := by
  unfold Inputs.goOn at hs
  split at hs
  · cases hs
  · split at hs
    · cases hs
      exact h.same (fun _ => rfl) rfl rfl fun n hn => by cases hn
    · cases hs
      refine h.same (fun _ => rfl) rfl rfl fun n hn => ?_
      cases hn
      exact Nat.le_refl _
  · rename_i queued hcall
    split at hs
    · cases hs
      exact h.same (fun _ => rfl) rfl rfl fun n hn => by cases hn
    · rename_i hempty
      cases hs
      have hzero := h.looked queued hcall
      rw [not_not.mp hempty] at hzero
      refine ⟨?_, ?_, ?_, fun n hn => by cases hn⟩
      · intro d
        obtain ⟨rest, hrest, horder⟩ := h.order d
        refine ⟨rest, hrest, ?_⟩
        rw [taken_append rfl, horder]
        simp
      · intro g hg d e hsource
        rcases mem_append.mp hg with hg | hg
        · exact h.values g hg d e hsource
        · rw [mem_singleton.mp hg] at hsource
          cases hsource
      · intro g hg hsource
        rcases mem_append.mp hg with hg | hg
        · exact h.nothing g hg hsource
        · rw [mem_singleton.mp hg]
          exact ⟨rfl, Nat.le_zero.mp hzero⟩
  · exact h.readEvent hs

theorem Inv.step (h : Inv s) (hs : s.step e = some s') : Inv s' := by
  cases e with
  | report d e =>
    cases hs
    have hsame : ∀ d', (update s.dev d { s.dev d with pending := (s.dev d).pending ++ [e] } d').events = (s.dev d').events := by
      intro d'
      by_cases hd : d' = d
      · rw [hd, update_self]
      · rw [update_of_ne hd]
    refine h.same hsame rfl rfl fun n hn => ?_
    dsimp only
    rw [hsame]
    exact h.looked n hn
  | irq d => exact h.irq hs
  | call =>
    rw [Inputs.step] at hs
    split at hs
    · cases hs
      exact h.same (fun _ => rfl) rfl rfl fun n hn => by cases hn
    · cases hs
  | goOn => exact h.goOn hs

end Inputs

/-- The calls take the queued events in order, each once; a call that takes none returns none, and the others return what they
have taken exactly if none of that is 0. -/
theorem events_delivered_iff {s : Inputs} (hs : inputs.Reach s) :
    (∀ d, ∃ rest, (s.dev d).events = rest.map InputEvent.pack ∧ s.queued d = s.taken d ++ rest) ∧
      (∀ g ∈ s.got, g.source = none → g.value = none ∧ g.queued = 0) ∧
      ((∀ g ∈ s.got, g.value = g.source.map Prod.snd) ↔ ∀ g ∈ s.got, ∀ d e, g.source = some (d, e) → e ≠ .zero) := by
  have h : s.Inv := by
    refine hs.inv Inputs.Inv ?_ fun s e s' h hstep => h.step hstep
    intro s hinit
    rw [show s = _ from hinit]
    exact Inputs.inv_start
  refine ⟨h.order, h.nothing, ?_, ?_⟩
  · intro hfaithful g hg d e hsource hzero
    have hvalue := h.values g hg d e hsource
    rw [hfaithful g hg, hsource, eventGet_pack, if_pos hzero] at hvalue
    cases hvalue
  · intro hnonzero g hg
    cases hsource : g.source with
    | none => exact (h.nothing g hg hsource).1
    | some x =>
      obtain ⟨d, e⟩ := x
      rw [h.values g hg d e hsource, eventGet_pack, if_neg (hnonzero g hg d e hsource)]
      rfl

/-- An event of the keyboard, from the device to a program. -/
def oneEvent (e : InputEvent) : List InputStep := [.report .keyboard e, .irq .keyboard, .call, .goOn, .goOn]

/-- A key is pressed. -/
theorem events_delivered_key : ∃ s, inputs.Reach s ∧ s.got.map Got.value = [some ⟨1, 30, 1⟩] ∧
    ∀ g ∈ s.got, g.value = g.source.map Prod.snd := by
  have hinit : inputs.Reach ⟨fun _ => ⟨[], []⟩, .user, fun _ => [], []⟩ := .init rfl
  have hrun : ∃ s ∈ inputs.run ⟨fun _ => ⟨[], []⟩, .user, fun _ => [], []⟩ (oneEvent ⟨1, 30, 1⟩),
      s.got = [⟨some ⟨1, 30, 1⟩, some (.keyboard, ⟨1, 30, 1⟩), 0⟩] := ⟨_, rfl, by decide⟩
  obtain ⟨s, hs, hgot⟩ := hinit.exists_run hrun
  refine ⟨s, hs, by rw [hgot]; rfl, (events_delivered_iff hs).2.2.mpr ?_⟩
  intro g hg d e hsource
  rw [hgot, mem_singleton] at hg
  rw [hg] at hsource
  cases hsource
  decide

theorem sync_event_lost : ∃ s, inputs.Reach s ∧ s.queued .keyboard = [⟨0, 0, 0⟩] ∧ (s.dev .keyboard).events = [] ∧
    s.got.map Got.value = [none] := by
  have hinit : inputs.Reach ⟨fun _ => ⟨[], []⟩, .user, fun _ => [], []⟩ := .init rfl
  have hrun : ∃ s ∈ inputs.run ⟨fun _ => ⟨[], []⟩, .user, fun _ => [], []⟩ (oneEvent ⟨0, 0, 0⟩), s.queued .keyboard = [⟨0, 0, 0⟩] ∧
      (s.dev .keyboard).events = [] ∧ s.got.map Got.value = [none] := ⟨_, rfl, by decide, by decide, by decide⟩
  exact hinit.exists_run hrun

end TCore.Kernel
