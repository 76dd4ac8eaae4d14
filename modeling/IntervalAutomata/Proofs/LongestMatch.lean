import Mathlib.Data.String.Basic
import IntervalAutomata.Proofs.Acceptance

/-! # The longest match at an offset

A separated automaton has one path for the text it reads, so a single walk passes through every word of
the language that the text starts with, and the last accepting state on it ends the longest of them. A
known singleton is the only word there is, and comparing the text with it comes to the same. -/

namespace IntervalAutomata

/-! ## Byte offsets -/

section

variable {u v cs rest : List Char} {c : Char} {offset : Nat}

@[simp] theorem byteLength_nil : byteLength [] = 0 := rfl

@[simp] theorem byteLength_cons : byteLength (c :: cs) = c.utf8Size + byteLength cs := rfl

@[simp] theorem byteLength_append : byteLength (u ++ v) = byteLength u + byteLength v := by
  induction u with
  | nil => simp
  | cons c u ih => rw [List.cons_append, byteLength_cons, ih, byteLength_cons, Nat.add_assoc]

theorem byteLength_eq_zero_iff : byteLength cs = 0 ↔ cs = [] := by
  cases cs with
  | nil => simp
  | cons c cs => simp [Nat.ne_of_gt c.utf8Size_pos]

theorem utf8ByteSize_eq_byteLength (s : String) : s.utf8ByteSize = byteLength s.toList := by
  have h : ∀ cs, String.utf8Len cs = byteLength cs := by
    intro cs
    induction cs with
    | nil => rfl
    | cons c cs ih => rw [String.utf8Len_cons, ih, byteLength_cons, Nat.add_comm]
  rw [← h, ← String.utf8ByteSize_ofList, String.ofList_toList]

theorem suffixAt?_eq_some_iff :
    suffixAt? offset cs = some rest ↔ ∃ before, cs = before ++ rest ∧ byteLength before = offset := by
  induction offset, cs using suffixAt?.induct with
  | case1 cs =>
    rw [suffixAt?, Option.some.injEq]
    constructor
    · intro h
      exact ⟨[], h, rfl⟩
    · intro ⟨before, h, hzero⟩
      rw [h, byteLength_eq_zero_iff.mp hzero, List.nil_append]
  | case2 offset =>
    rw [suffixAt?]
    refine iff_of_false nofun ?_
    intro ⟨before, h, hlength⟩
    rw [(List.append_eq_nil_iff.mp h.symm).1] at hlength
    exact Nat.succ_ne_zero _ hlength.symm
  | case3 offset c cs hle ih =>
    rw [suffixAt?, if_pos hle, ih]
    constructor
    · intro ⟨before, h, hlength⟩
      refine ⟨c :: before, by rw [h, List.cons_append], ?_⟩
      rw [byteLength_cons, hlength]
      omega
    · intro ⟨before, h, hlength⟩
      cases before with
      | nil => exact absurd hlength.symm (Nat.succ_ne_zero _)
      | cons d before =>
        obtain ⟨rfl, htail⟩ := List.cons.inj h
        rw [byteLength_cons] at hlength
        exact ⟨before, htail, by omega⟩
  | case4 offset c cs hlt =>
    rw [suffixAt?, if_neg hlt]
    refine iff_of_false nofun ?_
    intro ⟨before, h, hlength⟩
    cases before with
    | nil => exact absurd hlength.symm (Nat.succ_ne_zero _)
    | cons d before =>
      obtain ⟨rfl, -⟩ := List.cons.inj h
      rw [byteLength_cons] at hlength
      omega

theorem suffixAt?_byteLength : suffixAt? (byteLength u) (u ++ v) = some v :=
  suffixAt?_eq_some_iff.mpr ⟨u, rfl, rfl⟩

end

/-! ## The longest word a text starts with -/

/-- The end of the longest word of `l` that `rest` starts with, or `best` where there is none. -/
inductive Longest (l : Language Char) (offset : Nat) (rest : List Char) (best : Option Nat) :
    Option Nat → Prop
  | found {w} : w <+: rest → w ∈ l → (∀ u, u <+: rest → u ∈ l → byteLength u ≤ byteLength w) →
      Longest l offset rest best (some (offset + byteLength w))
  | missing : (∀ u, u <+: rest → u ∉ l) → Longest l offset rest best best

namespace Longest

variable {l l' : Language Char} {offset : Nat} {best r : Option Nat} {c : Char} {rest : List Char}
  {accepted : Bool}

/-- Where only the empty word can count, the search is over. -/
theorem of_only_nil (hnil : accepted = true ↔ [] ∈ l) (h : ∀ u, u <+: rest → u ∈ l → u = []) :
    Longest l offset rest best (if accepted then some offset else best) := by
  split
  · rename_i haccepted
    exact .found List.nil_prefix (hnil.mp haccepted) fun u hu hmem => by rw [h u hu hmem]
  · rename_i haccepted
    exact .missing fun u hu hmem => haccepted (hnil.mpr (h u hu hmem ▸ hmem))

/-- One character further on the rests of the words count, and the empty word is what has been found. -/
theorem cons (hnil : accepted = true ↔ [] ∈ l) (hcons : ∀ u, c :: u ∈ l ↔ u ∈ l')
    (h : Longest l' (offset + c.utf8Size) rest (if accepted then some offset else best) r) :
    Longest l offset (c :: rest) best r := by
  cases h with
  | @found w hpre hmem hmax =>
    rw [Nat.add_assoc, ← byteLength_cons]
    refine .found ((List.prefix_cons_inj c).mpr hpre) ((hcons w).mpr hmem) fun u hu hmem => ?_
    obtain rfl | ⟨t, rfl, ht⟩ := List.prefix_cons_iff.mp hu
    · exact Nat.zero_le _
    · exact Nat.add_le_add_left (hmax t ht ((hcons t).mp hmem)) _
  | missing hnone =>
    refine of_only_nil hnil fun u hu hmem => ?_
    obtain rfl | ⟨t, rfl, ht⟩ := List.prefix_cons_iff.mp hu
    · rfl
    · exact absurd ((hcons t).mp hmem) (hnone t ht)

end Longest

namespace Matcher

variable {m : Matcher}

/-- Sightings apart, one character of the walk. -/
theorem value_longestFrom_cons (m : Matcher) (q offset : Nat) (best : Option Nat) (c : Char)
    (rest : List Char) :
    (m.longestFrom q offset best (c :: rest)).value =
      match m.automaton.step q c.toNat with
      | some p =>
        (m.longestFrom p (offset + c.utf8Size)
          (if m.automaton.isAccepting p then some (offset + c.utf8Size) else best) rest).value
      | none => best := by
  rw [longestFrom, Journal.value_bind]
  cases m.automaton.step q c.toNat with
  | none => rfl
  | some p =>
    dsimp only
    split <;> rfl

theorem longest_longestFrom (hm : m.automaton.WellFormed) (q offset : Nat) (best : Option Nat)
    (rest : List Char) :
    Longest (readAs Char.toNat (m.automaton.residual q)) offset rest best
      (m.longestFrom q offset (if m.automaton.isAccepting q then some offset else best) rest).value := by
  have hseparated := hm.separated m.deterministic
  have hnil : ∀ q, m.automaton.isAccepting q = true ↔
      [] ∈ readAs Char.toNat (m.automaton.residual q) := fun q => Automaton.nil_mem_residual.symm
  induction rest generalizing q offset best with
  | nil => exact .of_only_nil (hnil q) fun u hu _ => List.prefix_nil.mp hu
  | cons c rest ih =>
    rw [value_longestFrom_cons]
    split
    · rename_i p hstep
      have hp := (hm.step_eq_some_iff hseparated).mp hstep
      refine .cons (hnil q) (fun u => ?_) (ih p _ _)
      exact (hm.functional hseparated).mem_residual_iff (.cons hp (.nil p))
    · rename_i hstep
      -- no word goes on with this character
      refine .of_only_nil (hnil q) fun u hu hmem => ?_
      obtain rfl | ⟨t, rfl, -⟩ := List.prefix_cons_iff.mp hu
      · rfl
      · obtain ⟨p, hp, -⟩ := Automaton.cons_mem_residual.mp hmem
        rw [← hm.step_eq_some_iff hseparated, hstep] at hp
        cases hp

/-- A walk ends no earlier than it starts. -/
theorem le_longestFrom {start q offset : Nat} {best : Option Nat} {rest : List Char}
    (hle : start ≤ offset) (hbest : ∀ stop, best = some stop → start ≤ stop) :
    ∀ stop, (m.longestFrom q offset best rest).value = some stop → start ≤ stop := by
  induction rest generalizing q offset best with
  | nil => exact hbest
  | cons c rest ih =>
    have hnext : start ≤ offset + c.utf8Size := Nat.le_add_right_of_le hle
    rw [value_longestFrom_cons]
    split
    · refine ih hnext ?_
      split
      · exact fun stop hstop => Option.some.inj hstop ▸ hnext
      · exact hbest
    · exact hbest

/-- A match never ends before it starts, whatever the automaton. -/
theorem le_longest {start stop : Nat} {rest : List Char}
    (h : (m.longest start rest).value = some stop) : start ≤ stop := by
  rw [longest, Journal.value_bind] at h
  split at h
  · split at h
    · exact Option.some.inj h ▸ Nat.le_add_right _ _
    · cases h
  · dsimp only at h
    split at h
    · exact le_longestFrom (Nat.le_refl _) (fun e he => Nat.le_of_eq (Option.some.inj he)) _ h
    · refine le_longestFrom (Nat.le_refl _) ?_ _ h
      simp

/-- The texts of a known singleton. -/
theorem readAs_symbols (s : String) : readAs Char.toNat {symbols s} = {s.toList} := by
  have hinj : Function.Injective Char.toNat := fun c d hcd => Char.toNat_inj.mp hcd
  ext u
  rw [mem_readAs]
  exact hinj.list_map.eq_iff

/-- **The longest match is the longest accepted text.** -/
theorem longest_longest (hm : m.automaton.WellFormed) (start : Nat) (rest : List Char) :
    Longest (Algebra.texts m.automaton) start rest none (m.longest start rest).value := by
  rw [Algebra.texts_eq hm, longest, Journal.value_bind]
  split
  · rename_i s hs
    rw [hm.known s hs, readAs_symbols]
    split
    · rename_i hpre
      show Longest _ start rest none (some (start + s.utf8ByteSize))
      rw [utf8ByteSize_eq_byteLength]
      exact .found (List.isPrefixOf_iff_prefix.mp hpre) rfl fun u _ hu => by rw [hu]
    · rename_i hpre
      refine .missing fun u hu hmem => hpre (List.isPrefixOf_iff_prefix.mpr ?_)
      exact (show u = s.toList from hmem) ▸ hu
  · have h := longest_longestFrom hm m.automaton.initial start none rest
    dsimp only
    split
    · rename_i haccepting
      rw [if_pos haccepting] at h
      exact h
    · rename_i haccepting
      rw [if_neg haccepting] at h
      exact h

end Matcher

end IntervalAutomata
