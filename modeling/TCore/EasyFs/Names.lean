/-
  TCore.EasyFs.Names — paths and names, and what later volumes keep of them.

  - `reachable_rootless`: no entry of a volume leads back to its root.
-/

import TCore.EasyFs.Tree

namespace TCore.EasyFs

open TCore.Lib
open List Option DirEntry EasyFs.Geometry

/-! ## Paths and names -/

theorem flatten_splitOn (a : UInt8) (l : List UInt8) : (l.splitOn a).flatten = l.filter (· ≠ a) := by
  rw [List.splitOn]
  induction l with
  | nil => rfl
  | cons x l ih =>
    rw [splitOnP_cons_eq_if_modifyHead]
    by_cases h : x = a
    · subst h
      simp [ih]
    · cases hs : l.splitOnP (· == a) with
      | nil => exact absurd hs (splitOnP_ne_nil _ l)
      | cons y ys =>
        rw [hs] at ih
        simpa [h] using ih

/-- The components are the path without its slashes. -/
theorem components_flatten (path : List UInt8) : (components path).flatten = path.filter (· ≠ 47) := by
  rw [← flatten_splitOn, components]
  exact flatten_filter_not_isEmpty

variable {name : List UInt8}

theorem components_of_noSlash (h : 47 ∉ name) :
    components name = if name = [] then [] else [name] := by
  have hs : name.splitOn 47 = [name] := by
    refine splitOnP_eq_singleton fun x hx => ?_
    rw [beq_eq_false_iff_ne]
    rintro rfl
    exact h hx
  rw [components, hs]
  cases name <;> rfl

/-- An entry that reads back as the only component of its path is one of the names of the directory layer. -/
theorem validName_of_component {path c : List UInt8} {n : UInt32} {e : DirEntry} (hc : components path = [c])
    (he : new path n = some e) (hname : e.nameOf = some c) : ValidName path := by
  have hlen : path.length ≤ 28 := by
    by_contra hl
    rw [new, if_neg hl] at he
    cases he
  rw [new, if_pos hlen] at he
  cases he
  have hget : ∀ i < 28, (Arr.ofFn fun i => path.getD i 0 : Arr UInt8 28).get i = path.getD i 0 :=
    fun i hi => Arr.get_ofFn_lt _ hi
  have hfilter : c = path.filter (· ≠ 47) := by
    rw [← components_flatten, hc]
    simp
  have hnonempty : c ≠ [] := by
    have hmem : c ∈ components path := by simp [hc]
    rw [components, mem_filter] at hmem
    simpa using hmem.2
  rw [nameOf] at hname
  cases hfind : (List.range 28).find? fun i => (Arr.ofFn fun i => path.getD i 0 : Arr UInt8 28).get i == 0 with
  | none =>
    rw [hfind] at hname
    cases hname
  | some len =>
    simp only [hfind] at hname
    rw [find?_range_eq_some] at hfind
    obtain ⟨hzero, hlt, hfirst⟩ := hfind
    have hlt := mem_range.mp hlt
    obtain ⟨htext, hname⟩ := ite_none_right_eq_some.mp hname
    have hchars : (List.range len).map (fun i => path.getD i 0) = c := by
      rw [← some.inj hname]
      exact map_congr_left fun i hi => (hget i (by have := mem_range.mp hi; omega)).symm
    have hbytes : ∀ i < len, path.getD i 0 ≠ 0 := by
      intro i hi
      have := hfirst i hi
      rw [hget i (by omega)] at this
      simpa using this
    have hnul : 0 ∉ path := by
      intro h0
      have : 0 ∈ c := by
        rw [hfilter, mem_filter]
        exact ⟨h0, by decide⟩
      rw [← hchars, List.mem_map] at this
      obtain ⟨i, hi, h0⟩ := this
      exact hbytes i (mem_range.mp hi) h0
    -- the NUL that ends the name is the first one after it
    have hend : len = path.length := by
      rcases Nat.lt_trichotomy len path.length with hl | hl | hl
      · rw [hget len hlt] at hzero
        have hmem : path.getD len 0 ∈ path := by simp [List.getD, hl]
        rw [beq_iff_eq.mp hzero] at hmem
        exact absurd hmem hnul
      · exact hl
      · exact absurd (by simp [List.getD]) (hbytes path.length hl)
    have hpath : c = path := by
      rw [← hchars, hend]
      apply ext_getElem (by simp)
      intro i h1 h2
      simp [List.getD, h2]
    refine ⟨hpath ▸ hnonempty, by omega, ?_, hnul, ?_⟩
    · rw [hpath] at hfilter
      intro hslash
      rw [hfilter, mem_filter] at hslash
      simp at hslash
    · rw [← hpath, ← some.inj hname]
      exact htext

/-! ## What later volumes keep -/

/-- Inodes keep their type, and directories their entries. -/
structure Extended (g : Geometry) (d : Disk) (m : Nat) (d' : Disk) : Prop where
  kind : ∀ i < m, (g.inodeOf d' i).type_ = (g.inodeOf d i).type_
  entries : ∀ i < m, (g.inodeOf d i).isDir = true → g.direntsAt d i <+: g.direntsAt d' i

/-- No directory has an entry for the root. -/
def Rootless (g : Geometry) (d : Disk) (m : Nat) : Prop :=
  ∀ i < m, (g.inodeOf d i).isDir = true → ∀ e ∈ g.direntsAt d i, e.inodeNumber.toNat ≠ 0

theorem findIn_append_some {es xs : List DirEntry} {id : UInt32}
    (h : findIn name es = some (some id)) : findIn name (es ++ xs) = some (some id) := by
  induction es with
  | nil => cases h
  | cons e es ih =>
    obtain ⟨found, hfound, hf⟩ := bind_eq_some_iff.mp h
    rw [cons_append, findIn, hfound, bind_some]
    split at hf
    · rename_i heq
      rw [if_pos heq]
      exact hf
    · rename_i hne
      rw [if_neg hne]
      exact ih hf

theorem findIn_append_none {es xs : List DirEntry} (h : findIn name es = some none) :
    findIn name (es ++ xs) = findIn name xs := by
  induction es with
  | nil => rfl
  | cons e es ih =>
    obtain ⟨found, hfound, hf⟩ := bind_eq_some_iff.mp h
    rw [cons_append, findIn, hfound, bind_some]
    split at hf
    · cases hf
    · rename_i hne
      rw [if_neg hne]
      exact ih hf

section
variable {dev : Nat} {g : Geometry} {d d' : Disk} {m m' t i j : Nat} {s s' : Mount} {op : FsOp} {r : Option Inode}
  {p : List (List UInt8)}

theorem Extended.refl : Extended g d m d := ⟨fun _ _ => rfl, fun _ _ _ => prefix_rfl⟩

theorem Extended.isDir (h : Extended g d m d') (hi : i < m) : (g.inodeOf d' i).isDir = (g.inodeOf d i).isDir :=
  isDir_congr (h.kind i hi)

theorem Extended.trans {d'' : Disk} (h : Extended g d m d') (h' : Extended g d' m' d'') (hle : m ≤ m') : Extended g d m d'' := by
  refine ⟨fun i hi => (h'.kind i (by omega)).trans (h.kind i hi), fun i hi hdir => ?_⟩
  exact (h.entries i hi hdir).trans (h'.entries i (by omega) (by rw [h.isDir hi]; exact hdir))

theorem Wrote.extended {l : List UInt8} (hw : Wrote g d m t l d') (hfile : (g.inodeOf d t).isFile = true) :
    Extended g d m d' := by
  have hkind : ∀ i < m, (g.inodeOf d' i).type_ = (g.inodeOf d i).type_ := by
    intro i hi
    by_cases hit : i = t
    · rw [hit, hw.kind]
    · rw [(hw.other i hi hit).1]
  refine ⟨hkind, fun i hi hdir => ?_⟩
  have hdir' : (g.inodeOf d' i).isDir = true := by rw [isDir_congr (hkind i hi)]; exact hdir
  rw [direntsAt, direntsAt, (hw.dir_kept hfile hi hdir').2]

theorem Created.extended {ty : DiskInodeType} {e : DirEntry} (hc : Created g d m t ty e d') (hd : DirInv g d m) (ht : t < m)
    (hdir : (g.inodeOf d t).isDir = true) : Extended g d m d' := by
  refine ⟨fun i hi => ?_, fun i hi _ => ?_⟩
  · by_cases hit : i = t
    · rw [hit, hc.kind]
    · rw [(hc.other i hi hit).1]
  · by_cases hit : i = t
    · rw [hit, hc.dirents hd ht hdir]
      exact prefix_append _ _
    · rw [direntsAt, direntsAt, (hc.other i hi hit).2]

section

variable (ho : Outcome g d m t op r d' m') (hd : DirInv g d m) (ht : t < m)
include ho hd ht

theorem Outcome.extended : Extended g d m d' := by
  cases ho with
  | find hr => exact .refl
  | taken hdir hid => exact .refl
  | created hdir hnone he hc => exact hc.extended hd ht hdir
  | wrote hfile hw => exact hw.extended hfile
  | cleared hfile hw => exact hw.extended hfile

theorem Outcome.rootless (hr : Rootless g d m) :
    Rootless g d' m' := by
  have hwrote : ∀ {l}, (g.inodeOf d t).isFile = true → Wrote g d m t l d' → Rootless g d' m := by
    intro l hfile hw i hi hdir e he
    obtain ⟨h1, h2⟩ := hw.dir_kept hfile hi hdir
    rw [direntsAt, h2] at he
    exact hr i hi h1 e he
  cases ho with
  | find _ => exact hr
  | taken _ _ => exact hr
  | @created _ _ _ e _ hdir hnone he hc =>
    have hm := hc.inv.numbers
    intro i hi hdir' e' he'
    by_cases him : i = m
    · rw [direntsAt, contents_reset (him ▸ hc.new)] at he'
      cases he'
    · have hi : i < m := by omega
      rw [(hc.extended hd ht hdir).isDir hi] at hdir'
      by_cases hit : i = t
      · subst hit
        rw [hc.dirents hd ht hdir] at he'
        rcases mem_append.mp he' with hmem | hmem
        · exact hr i hi hdir' e' hmem
        · rw [mem_singleton.mp hmem, entry_number he (by omega)]
          omega
      · rw [direntsAt, (hc.other i hi hit).2] at he'
        exact hr i hi hdir' e' he'
  | wrote hfile hw => exact hwrote hfile hw
  | cleared hfile hw => exact hwrote hfile hw

end

theorem reachable_rootless {calls : FsOp → Prop} (hs : Reachable dev g calls s) :
    ∃ m, Mounted dev g s (s.disk dev) m ∧ Rootless g (s.disk dev) m := by
  induction hs with
  | mkfs h hg hrun =>
    obtain ⟨d, hm, hroot⟩ := mkfs_mounted h hg hrun
    refine ⟨1, by rw [hm.disk]; exact hm, ?_⟩
    intro i hi _ e he
    rw [hm.disk, show i = 0 by omega, direntsAt, contents_reset hroot] at he
    cases he
  | step hs hop hself hready hstep ih =>
    obtain ⟨m, hm, hr⟩ := ih
    obtain ⟨t, ht, rfl⟩ := hm.behind hself
    obtain ⟨r, d', m', ho, hm', -⟩ := hm.step ht hself hready hstep
    exact ⟨m', by rw [hm'.disk]; exact ⟨hm', ho.rootless hm.dirs ht hr⟩⟩

/-- A path that leads somewhere leads there ever after. -/
theorem Extended.resolve (h : Extended g d m d') (hd : DirInv g d m) (hi : i < m) (hp : g.resolve d i p = some (some j)) :
    g.resolve d' i p = some (some j) := by
  induction p generalizing i with
  | nil => exact hp
  | cons name rest ih =>
    rw [resolve] at hp
    by_cases hf : (g.inodeOf d i).isFile = true
    · rw [if_pos hf] at hp
      cases hp
    · have hdir := isDir_of_not_file hf
      rw [if_neg hf] at hp
      obtain ⟨found, hfound, hrest⟩ := bind_eq_some_iff.mp hp
      cases found with
      | none => cases hrest
      | some id =>
        obtain ⟨e, he, rfl⟩ := findIn_mem hfound
        obtain ⟨xs, hxs⟩ := h.entries i hi hdir
        have hf' : ¬(g.inodeOf d' i).isFile = true := by
          rw [isFile_iff, not_not, h.isDir hi]
          exact hdir
        rw [resolve, if_neg hf', ← hxs, findIn_append_some hfound, bind_some]
        exact ih (hd.inUse i hi hdir e he) hrest

end

end TCore.EasyFs
