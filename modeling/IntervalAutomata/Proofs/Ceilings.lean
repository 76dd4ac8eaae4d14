import IntervalAutomata.Proofs.Regular
import Mathlib.Data.Set.Card

/-! # Ceilings only refuse

A construction looks at its limits in two ways. A check compares a number with a ceiling and goes on or
fails, and an exploration stops when it has found too much, but what it finds until then does not depend
on the ceiling. So limits that admit more let every construction through that was let through before,
and with the same result (`Below`): this is kept by sequences, and each construction is one. The ceiling
on states counts what an exploration finds, that is the sets or the pairs that can be reached. -/

namespace IntervalAutomata

/-- The second limits admit whatever the first admit. -/
structure Limits.Within (l l' : Limits) : Prop where
  states : ∀ n', l'.maxStates = some n' → ∃ n ≤ n', l.maxStates = some n
  depth : l.maxDepth ≤ l'.maxDepth

variable {l l' limits : Limits} {n k : Nat}

namespace Build

variable {α β : Type} {b b' : Build α} {f f' : α → Build β}

/-- Whenever the first construction succeeds, the second one does with the same result. -/
def Below (b b' : Build α) : Prop := ∀ x, b.outcome = .ok x → b'.outcome = .ok x

theorem Below.refl (b : Build α) : b.Below b := fun _ h => h

/-- What has failed never goes on. -/
theorem below_throw (err : BuildError) (f : α → Build β) (b' : Build β) :
    (throw err >>= f : Build β).Below b' := by
  intro x hx
  obtain ⟨_, herr, -⟩ := outcome_bind_eq_ok.mp hx
  cases herr

/-- Sequences keep the order, where the second parts are compared on what the first one returns. -/
theorem Below.bind (h : b.Below b') (hf : ∀ x, b.outcome = .ok x → (f x).Below (f' x)) :
    (b >>= f).Below (b' >>= f') := by
  intro y hy
  obtain ⟨x, hx, hy⟩ := outcome_bind_eq_ok.mp hy
  exact outcome_bind_eq_ok.mpr ⟨x, h x hx, hf x hx y hy⟩

/-- Succeeds as long as no more than `n` are counted, and otherwise reports `n` as exceeded. -/
def Caps (b : Build α) (n : Nat) (count : ℕ∞) : Prop :=
  ((∃ x, b.outcome = .ok x) ↔ count ≤ n) ∧ (b.outcome = .error (.stateLimit n) ↔ n < count)

theorem caps_of_ite {count : Nat} {x : α}
    (h : b.outcome = if count ≤ n then .ok x else .error (.stateLimit n)) : b.Caps n count := by
  rw [Caps, h, Nat.cast_le, Nat.cast_lt, ← Nat.not_le]
  split
  · rename_i hle
    exact ⟨iff_of_true ⟨x, rfl⟩ hle, iff_of_false nofun (not_not.mpr hle)⟩
  · rename_i hlt
    exact ⟨iff_of_false nofun hlt, iff_of_true rfl hlt⟩

/-- What follows a construction that cannot fail does not count. -/
theorem Caps.bind {count : ℕ∞} (h : b.Caps n count) (hf : ∀ x, ∃ y, (f x).outcome = .ok y) :
    (b >>= f).Caps n count := by
  rw [Caps, outcome_bind]
  rw [Caps] at h
  cases hb : b.outcome with
  | error err =>
    rw [hb] at h
    refine ⟨?_, ?_⟩
    · rw [← h.1]
      exact iff_of_false nofun nofun
    · rw [← h.2]
      exact ⟨fun e => congrArg _ (Except.error.inj e), fun e => congrArg _ (Except.error.inj e)⟩
  | ok x =>
    rw [hb] at h
    obtain ⟨y, hy⟩ := hf x
    refine ⟨?_, ?_⟩
    · rw [← h.1]
      exact iff_of_true ⟨y, hy⟩ ⟨x, rfl⟩
    · rw [← h.2]
      refine iff_of_false (fun e => ?_) nofun
      cases hy.symm.trans e

end Build

open Build Exploration

/-! ## Checks and explorations -/

namespace Limits

theorem Within.checkStates (h : l.Within l') (k : Nat) :
    (l.checkStates k).Below (l'.checkStates k) := by
  intro u hu
  rw [Limits.checkStates]
  split
  · rename_i n' hn'
    obtain ⟨n, hle, hn⟩ := h.states n' hn'
    rw [if_neg (Nat.not_lt_of_le ((checkStates_eq_ok hn hu).trans hle))]
    rfl
  · rfl

theorem Within.checkProjected (h : l.Within l') (k : Nat) :
    (l.checkProjected k).Below (l'.checkProjected k) :=
  (Below.refl _).bind fun _ _ => h.checkStates k

theorem Within.checkDepth (h : l.Within l') (k : Nat) : (l.checkDepth k).Below (l'.checkDepth k) := by
  intro u hu
  have hle : k ≤ l.maxDepth := by
    rw [Limits.checkDepth] at hu
    split at hu
    · cases hu
    · exact Nat.le_of_not_lt ‹_›
  rw [Limits.checkDepth, if_neg (Nat.not_lt_of_le (hle.trans h.depth))]
  rfl

section

variable {α β : Type} {cmp : α → α → Ordering} [Std.TransCmp cmp] [Std.LawfulEqCmp cmp]
variable {look : α → Row α β} {x : α} {all : Nat} {e : Exploration α β cmp}

theorem size_of_explore (hall : Bounded look [x] all) (hn : limits.maxStates = some n)
    (h : (limits.explore cmp all look x).outcome = .ok e) : e.items.size ≤ Nat.max n 1 := by
  rw [outcome_explore hall, hn] at h
  dsimp only at h
  split at h
  · exact Except.ok.inj h ▸ ‹_›
  · cases h

theorem Within.explore (h : l.Within l') (hall : Bounded look [x] all) :
    (l.explore cmp all look x).Below (l'.explore cmp all look x) := by
  intro e he
  rw [outcome_explore hall, exploreAll_of_explore hall he]
  split
  · rfl
  · rename_i n' hn'
    obtain ⟨n, hle, hn⟩ := h.states n' hn'
    have hsize := size_of_explore hall hn he
    rw [if_pos (hsize.trans (by simp only [Nat.max_eq_max]; omega))]

/-- An exploration is let through when no more can be reached than the ceiling. -/
theorem caps_explore (hall : Bounded look [x] all) (hn : limits.maxStates = some n) (hpos : 1 ≤ n) :
    (limits.explore cmp all look x).Caps n {y | Reaches look [x] y}.encard := by
  have hwhole : Complete look [x] (exploreAll cmp all look [x]) := exploreAll_complete hall
  have hcount : {y | Reaches look [x] y}.encard = (exploreAll cmp all look [x]).items.size := by
    classical
    have hset : {y | Reaches look [x] y} =
        ((exploreAll cmp all look [x]).items.toList.toFinset : Set α) := by
      ext y
      rw [Finset.mem_coe, List.mem_toFinset, Array.mem_toList_iff, hwhole.mem_items]
      rfl
    rw [hset, Set.encard_coe_eq_coe_finsetCard, List.toFinset_card_of_nodup hwhole.indexed.nodup,
      Array.length_toList]
  rw [hcount]
  refine caps_of_ite (x := exploreAll cmp all look [x]) ?_
  rw [outcome_explore hall, hn]
  dsimp only
  rw [Nat.max_eq_max, Nat.max_eq_left hpos]

end

end Limits

/-! ## Operations on automata -/

namespace Automaton

variable {a b m : Automaton} {min : Nat} {max : Option Nat} {f : Fragment} {g : Graph}

theorem Valid.determinizeWith_below (ha : a.Valid) (h : l.Within l') :
    (a.determinizeWith l).Below (a.determinizeWith l') := by
  unfold determinizeWith
  split
  · exact .refl _
  · exact (h.explore ha.bounded_subsets).bind fun _ _ => .refl _

theorem Valid.minimizeWith_below (ha : a.Valid) (h : l.Within l') :
    (a.minimizeWith l).Below (a.minimizeWith l') := by
  unfold minimizeWith
  split
  · exact .refl _
  · exact (ha.determinizeWith_below h).bind fun _ _ => .refl _

theorem productOver_below {row : Nat × Nat → Row (Nat × Nat) Interval}
    (hrow : Bounded row [(a.initial, b.initial)] (a.size * b.size)) (h : l.Within l') :
    (productOver row l a b).Below (productOver row l' a b) := by
  rw [productOver, productOver]
  dsimp only
  by_cases hdet : (!a.deterministic || !b.deterministic) = true
  · rw [if_pos hdet, if_pos hdet]
    exact below_throw _ _ _
  · rw [if_neg hdet, if_neg hdet]
    split
    · exact .refl _
    · exact .refl _
    · exact (h.explore hrow).bind fun _ _ => .refl _

theorem Valid.intersectionWith_below (ha : a.Valid) (hb : b.Valid) (h : l.Within l') :
    (a.intersectionWith l b).Below (a.intersectionWith l' b) :=
  productOver_below (bounded_productRow ha hb) h

theorem Valid.intersectionInStep_below (ha : a.Valid) (hb : b.Valid) (h : l.Within l') :
    (a.intersectionInStep l b).Below (a.intersectionInStep l' b) :=
  productOver_below (bounded_rowInStep ha hb) h

theorem Valid.flip (ha : a.Valid) : a.flip.Valid where
  initial_lt := size_flip.symm ▸ ha.initial_lt
  target_lt p t ht := size_flip.symm ▸ ha.target_lt p t (transitions_flip p ▸ ht)
  ascends p := by
    rw [transitions_flip]
    exact ha.ascends p
  proper p t ht := ha.proper p t (transitions_flip p ▸ ht)

theorem Valid.complement (ha : a.Valid) (h : a.complement.outcome = .ok m) : m.Valid := by
  unfold Automaton.complement at h
  obtain ⟨b, hb, h⟩ := Build.outcome_bind_eq_ok.mp h
  obtain rfl := Build.outcome_reported.mp h
  obtain ⟨-, rfl⟩ := totalize_eq_ok hb
  exact ha.filled.flip.trim_valid

theorem Valid.differenceWith_below (ha : a.Valid) (hb : b.Valid) (h : l.Within l') :
    (a.differenceWith l b).Below (a.differenceWith l' b) := by
  unfold differenceWith
  split
  · exact .refl _
  · exact (Below.refl _).bind fun c hc => ha.intersectionInStep_below (hb.complement hc) h

theorem repetition_below (h : l.Within l') :
    (g.repetition l f min max).Below (g.repetition l' f min max) := by
  unfold Graph.repetition
  split
  · exact .refl _
  · refine (Below.refl _).bind fun _ _ => (Below.refl _).bind fun _ _ => ?_
    exact (h.checkProjected _).bind fun _ _ => .refl _

theorem unroll_below (h : l.Within l') : (a.unroll l min max).Below (a.unroll l' min max) := by
  unfold unroll
  refine (repetition_below h).bind fun _ _ => (Below.refl _).bind fun _ _ => ?_
  exact (h.checkStates _).bind fun _ _ => .refl _

theorem repetitionWith_below (h : l.Within l') :
    (a.repetitionWith l min max).Below (a.repetitionWith l' min max) := by
  unfold repetitionWith
  split
  · exact unroll_below h
  · split
    · exact .refl _
    · split
      · exact (h.checkProjected _).bind fun _ _ => .refl _
      · exact unroll_below h

/-! ## Sizes -/

theorem Valid.size_of_determinizeWith (ha : a.Valid) (hn : limits.maxStates = some n)
    (h : (a.determinizeWith limits).outcome = .ok m) : m = a ∨ m.size ≤ Nat.max n 1 := by
  unfold determinizeWith at h
  split at h
  · exact .inl (Build.outcome_pure_eq_ok.mp h).symm
  · obtain ⟨sets, hsets, h⟩ := Build.outcome_bind_eq_ok.mp h
    obtain rfl := Build.outcome_reported.mp h
    have hexplored := Limits.explored_of_explore ha.bounded_subsets hsets
    have hsize : sets.toJoined.size = sets.items.size := by
      rw [ha.subsets_toJoined hexplored]
      exact hexplored.size_assembled
    exact .inr (hsize.trans_le (Limits.size_of_explore ha.bounded_subsets hn hsets))

/-- The least automaton has no more states than the deterministic one that it is made from. -/
theorem WellFormed.size_of_minimizeWith (ha : a.WellFormed) (hn : limits.maxStates = some n)
    (hsize : a.size ≤ n) (hmark : a.minimal = false)
    (h : (a.minimizeWith limits).outcome = .ok m) : m.size ≤ n := by
  obtain ⟨hmark', -⟩ | ⟨-, hcanonical, -, -, -, hlanguage⟩ := ha.minimizeWith_eq_ok h
  · rw [hmark] at hmark'
    cases hmark'
  rw [minimizeWith, if_neg (by rw [hmark]; exact Bool.false_ne_true)] at h
  obtain ⟨d, hd, -⟩ := Build.outcome_bind_eq_ok.mp h
  obtain ⟨hwell, hdet, hsame⟩ := ha.determinizeWith hd
  have hle : m.size ≤ d.size :=
    hcanonical.least.2 d hwell.toValid (hwell.separated hdet) (hsame.trans hlanguage.symm)
  obtain rfl | hcount := ha.toValid.size_of_determinizeWith hn hd
  · exact hle.trans hsize
  · have hpos : 1 ≤ n := (Nat.succ_le_of_lt (Nat.zero_lt_of_lt ha.initial_lt)).trans hsize
    rw [Nat.max_eq_max, Nat.max_eq_left hpos] at hcount
    exact hle.trans hcount

theorem size_string (text : String) : (string text).size = text.toList.length + 1 :=
  length_chain 0 text.toList

theorem size_of_unroll (hn : limits.maxStates = some n)
    (h : (a.unroll limits min max).outcome = .ok m) : m.size ≤ n := by
  unfold unroll at h
  obtain ⟨_, -, h⟩ := Build.outcome_bind_eq_ok.mp h
  obtain ⟨_, -, h⟩ := Build.outcome_bind_eq_ok.mp h
  obtain ⟨_, hcheck, h⟩ := Build.outcome_bind_eq_ok.mp h
  obtain rfl := Build.outcome_pure_eq_ok.mp h
  exact Limits.checkStates_eq_ok hn hcheck

theorem size_of_repetitionWith (hn : limits.maxStates = some n)
    (h : (a.repetitionWith limits min max).outcome = .ok m) : m.size ≤ n := by
  unfold repetitionWith at h
  split at h
  · exact size_of_unroll hn h
  · split at h
    · cases h
    · split at h
      · rename_i text _ _
        obtain ⟨_, hcheck, h⟩ := Build.outcome_bind_eq_ok.mp h
        obtain rfl := Build.outcome_pure_eq_ok.mp h
        obtain ⟨_, -, hcheck⟩ := Build.outcome_bind_eq_ok.mp hcheck
        refine (Nat.le_of_eq ?_).trans (Limits.checkStates_eq_ok hn hcheck)
        rw [size_string, String.toList_ofList, Pattern.repeatWord_eq, List.length_flatten,
          List.map_replicate, List.sum_replicate, smul_eq_mul, Nat.mul_comm, String.length_toList]
      · exact size_of_unroll hn h

/-! ## What the ceiling counts -/

/-- **Determinization is refused for too many sets.** -/
theorem Valid.caps_determinizeWith (ha : a.Valid) (hdet : a.deterministic = false)
    (hn : limits.maxStates = some n) (hpos : 1 ≤ n) :
    (a.determinizeWith limits).Caps n {S : Set Nat | S.Nonempty ∧ ∃ w, S = a.reachedBy w}.encard := by
  have hsets : {S : Set Nat | S.Nonempty ∧ ∃ w, S = a.reachedBy w} =
      (fun set : List Nat => {q | q ∈ set}) '' {set | Reaches a.subsetRow [[a.initial]] set} := by
    ext S
    simp only [Set.mem_ofPred_eq, Set.mem_image, ha.reaches_subset_iff, reachedBy_eq]
    constructor
    · rintro ⟨⟨q, hq⟩, w, rfl⟩
      exact ⟨_, ⟨List.ne_nil_of_mem hq, w, rfl⟩, rfl⟩
    · rintro ⟨set, ⟨hne, w, rfl⟩, rfl⟩
      exact ⟨List.exists_mem_of_ne_nil _ hne, w, rfl⟩
  have hinj : Set.InjOn (fun set : List Nat => {q | q ∈ set})
      {set | Reaches a.subsetRow [[a.initial]] set} := fun s hs t ht heq =>
    (ascends_of_reaches ha hs).1.eq_of_mem_iff (ascends_of_reaches ha ht).1 fun q =>
      Set.ext_iff.mp heq q
  rw [hsets, hinj.encard_image, determinizeWith, if_neg (by rw [hdet]; exact Bool.false_ne_true)]
  exact (Limits.caps_explore ha.bounded_subsets hn hpos).bind fun _ => ⟨_, rfl⟩

/-- **An intersection is refused for too many pairs.** -/
theorem Valid.caps_intersectionWith (ha : a.Valid) (hb : b.Valid) (hda : a.deterministic = true)
    (hdb : b.deterministic = true) (hsa : a.singleton = none) (hsb : b.singleton = none)
    (hn : limits.maxStates = some n) (hpos : 1 ≤ n) :
    (a.intersectionWith limits b).Caps n
      {x : Nat × Nat | ∃ w, a.Path a.initial w x.1 ∧ b.Path b.initial w x.2}.encard := by
  have hpairs : {x : Nat × Nat | ∃ w, a.Path a.initial w x.1 ∧ b.Path b.initial w x.2} =
      {x | Reaches (productRow a b) [(a.initial, b.initial)] x} := by
    ext x
    exact ha.reaches_product_iff.symm
  rw [hpairs, intersectionWith, productOver]
  dsimp only
  rw [hda, hdb, hsa, hsb, if_neg (by decide)]
  exact (Limits.caps_explore (bounded_productRow ha hb) hn hpos).bind fun _ => ⟨_, rfl⟩

theorem WellFormed.caps_intersectionInStep (ha : a.WellFormed) (hb : b.WellFormed)
    (hda : a.deterministic = true) (hdb : b.deterministic = true) (hsa : a.singleton = none)
    (hsb : b.singleton = none) (hn : limits.maxStates = some n) (hpos : 1 ≤ n) :
    (a.intersectionInStep limits b).Caps n
      {x : Nat × Nat | ∃ w, a.Path a.initial w x.1 ∧ b.Path b.initial w x.2}.encard := by
  rw [ha.intersectionInStep_eq hb]
  exact ha.toValid.caps_intersectionWith hb.toValid hda hdb hsa hsb hn hpos

end Automaton

/-! ## Compilation -/

namespace Compiler

variable {p : Pattern} {minimize : Bool} {g : Graph} {f : Fragment} {region : Set Nat} {a : Automaton}

theorem finish_below (hf : g.Realizes Interval.Proper region f p.words) (h : l.Within l') :
    (finish l minimize p f g).Below (finish l' minimize p f g) := by
  unfold finish
  refine (Below.refl _).bind fun flat hflat => (h.checkStates _).bind fun _ _ => ?_
  rw [Build.outcome_lift] at hflat
  obtain rfl := Except.ok.inj hflat
  obtain ⟨hwell, hlanguage⟩ := hf.toAutomaton
  obtain ⟨hknown, -⟩ := record_exact hwell hlanguage
  dsimp only
  split
  · exact (hknown.toValid.minimizeWith_below h).bind fun _ _ => .refl _
  · exact .refl _

/-- The checks let through no less. -/
theorem compile_below_of_lower (h : l.Within l')
    (hlower : p.invertedBounds? = none → (lower l {} p).Below (lower l' {} p)) :
    (compile ⟨l, minimize⟩ p).Below (compile ⟨l', minimize⟩ p) := by
  unfold compile compileLowered
  refine (h.checkDepth _).bind fun _ _ => ?_
  cases hp : p.invertedBounds? with
  | some bounds =>
    dsimp only
    exact below_throw _ _ _
  | none =>
    dsimp only
    refine (hlower hp).bind fun built hbuilt => ?_
    have hf := (lower_builds hp hbuilt).realizes
    exact finish_below hf h

theorem lower_below (hp : p.invertedBounds? = none) (h : l.Within l') :
    (lower l g p).Below (lower l' g p) := by
  induction p generalizing g with
  | char | range | anyChar | empty | emptyString => exact .refl _
  | alternation left right ihl ihr | concatenation left right ihl ihr =>
    obtain ⟨hpl, hpr⟩ := Option.or_eq_none_iff.mp hp
    unfold lower
    exact (ihl hpl).bind fun _ _ => (ihr hpr).bind fun _ _ => .refl _
  | star inner ih | plus inner ih =>
    unfold lower
    exact (ih hp).bind fun _ _ => .refl _
  | repeated inner min max ih =>
    unfold lower
    exact (ih (bounds_of_repeated hp).1).bind fun _ _ => Automaton.repetition_below h
  | intersection left right ihl ihr =>
    rw [lower_intersection, lower_intersection]
    refine (compile_below_of_lower h ihl).bind fun a ha => ?_
    refine (compile_below_of_lower h ihr).bind fun b hb => ?_
    have hvalid := (compile_words ha).1.toValid
    exact (hvalid.intersectionInStep_below (compile_words hb).1.toValid h).bind fun _ _ => .refl _
  | complement inner ih =>
    rw [lower_complement, lower_complement]
    exact (compile_below_of_lower h ih).bind fun _ _ => .refl _

theorem compile_below (h : l.Within l') :
    (compile ⟨l, minimize⟩ p).Below (compile ⟨l', minimize⟩ p) :=
  compile_below_of_lower h fun hp => lower_below hp h

theorem size_of_compile (hn : l.maxStates = some n)
    (h : (compile ⟨l, minimize⟩ p).outcome = .ok a) : a.size ≤ n := by
  obtain ⟨g, region, f, hf, h⟩ := compile_finishes h
  obtain ⟨known, hknown, -, hmark, hsize, rfl | hm⟩ := finish_cases hf h
  · exact hsize n hn
  · exact hknown.size_of_minimizeWith hn (hsize n hn) hmark hm

end Compiler

/-! ## All constructions -/

open Automaton

/-- **Ceilings only refuse, and only when they are exceeded.** Limits that admit more let through
whatever was let through before, with the same result. What a ceiling on states lets through has no
more states, and what determinization and intersection count against it are the sets and the pairs of
states that can be reached. -/
theorem Limits.Within.refuse_only (h : l.Within l') :
    ((∀ minimize p, (Compiler.compile ⟨l, minimize⟩ p).Below (Compiler.compile ⟨l', minimize⟩ p)) ∧
      (∀ a : Automaton, a.Valid → (a.determinizeWith l).Below (a.determinizeWith l')) ∧
      (∀ a : Automaton, a.Valid → (a.minimizeWith l).Below (a.minimizeWith l')) ∧
      (∀ a b : Automaton, a.Valid → b.Valid →
        (a.intersectionWith l b).Below (a.intersectionWith l' b)) ∧
      (∀ a b : Automaton, a.Valid → b.Valid →
        (a.differenceWith l b).Below (a.differenceWith l' b)) ∧
      (∀ (a : Automaton) (min : Nat) (max : Option Nat),
        (a.repetitionWith l min max).Below (a.repetitionWith l' min max)) ∧
      ∀ a b : Automaton, a.Valid → b.Valid →
        (a.intersectionInStep l b).Below (a.intersectionInStep l' b)) ∧
    ∀ n, l.maxStates = some n →
      (∀ minimize p m, (Compiler.compile ⟨l, minimize⟩ p).outcome = .ok m → m.size ≤ n) ∧
      (∀ (a : Automaton) (min : Nat) (max : Option Nat) (m : Automaton),
        (a.repetitionWith l min max).outcome = .ok m → m.size ≤ n) ∧
      (1 ≤ n →
        (∀ a : Automaton, a.Valid → a.deterministic = false →
          (a.determinizeWith l).Caps n
            {S : Set Nat | S.Nonempty ∧ ∃ w, S = a.reachedBy w}.encard) ∧
        (∀ a b : Automaton, a.Valid → b.Valid → a.deterministic = true → b.deterministic = true →
          a.singleton = none → b.singleton = none →
            (a.intersectionWith l b).Caps n
              {x : Nat × Nat | ∃ w, a.Path a.initial w x.1 ∧ b.Path b.initial w x.2}.encard) ∧
        ∀ a b : Automaton, a.WellFormed → b.WellFormed → a.deterministic = true →
          b.deterministic = true → a.singleton = none → b.singleton = none →
            (a.intersectionInStep l b).Caps n
              {x : Nat × Nat | ∃ w, a.Path a.initial w x.1 ∧ b.Path b.initial w x.2}.encard) :=
  ⟨⟨fun _ _ => Compiler.compile_below h, fun _ ha => ha.determinizeWith_below h,
      fun _ ha => ha.minimizeWith_below h, fun _ _ ha hb => ha.intersectionWith_below hb h,
      fun _ _ ha hb => ha.differenceWith_below hb h, fun _ _ _ => repetitionWith_below h,
      fun _ _ ha hb => ha.intersectionInStep_below hb h⟩,
    fun _ hn => ⟨fun _ _ _ => Compiler.size_of_compile hn, fun _ _ _ _ => size_of_repetitionWith hn,
      fun hpos => ⟨fun _ ha hdet => ha.caps_determinizeWith hdet hn hpos,
        fun _ _ ha hb hda hdb hsa hsb => ha.caps_intersectionWith hb hda hdb hsa hsb hn hpos,
        fun _ _ ha hb hda hdb hsa hsb => ha.caps_intersectionInStep hb hda hdb hsa hsb hn hpos⟩⟩⟩

/-- Three sets of states can be reached, and two pairs. -/
theorem refuse_only_branching :
    (2 : ℕ∞) < {S : Set Nat | S.Nonempty ∧ ∃ w, S = branching.reachedBy w}.encard ∧
    {x : Nat × Nat | ∃ w, (interval ⟨97, 99⟩).Path 0 w x.1 ∧ anyString.Path 0 w x.2}.encard ≤ 2 ∧
    ∃ m, (branching.repetitionWith ⟨some 9, 5⟩ 2 (some 3)).outcome = .ok m ∧
      (branching.repetitionWith ⟨none, 6⟩ 2 (some 3)).outcome = .ok m ∧ m.size ≤ 9 := by
  have hwithin : Limits.Within ⟨some 2, 5⟩ ⟨some 3, 5⟩ :=
    ⟨fun n' hn' => ⟨2, Option.some.inj hn' ▸ by decide, rfl⟩, Nat.le_refl 5⟩
  have hopen : Limits.Within ⟨some 9, 5⟩ ⟨none, 6⟩ := ⟨nofun, by decide⟩
  obtain ⟨hsets, hpairs, -⟩ := (hwithin.refuse_only.2 2 rfl).2.2 (by decide)
  have hvalid : branching.Valid := by decide
  have hrefused : (branching.determinizeWith ⟨some 2, 5⟩).outcome = .error (.stateLimit 2) := by
    decide +kernel
  have hbuilt := exists_outcome_eq_ok (b := (interval ⟨97, 99⟩).intersectionWith ⟨some 2, 5⟩ anyString)
    (by decide +kernel)
  obtain ⟨m, hm⟩ := exists_outcome_eq_ok (b := branching.repetitionWith ⟨some 9, 5⟩ 2 (some 3))
    (by decide +kernel)
  obtain ⟨⟨-, -, -, -, -, hrepeat, -⟩, hcaps⟩ := hopen.refuse_only
  exact ⟨(hsets branching hvalid rfl).2.mp hrefused,
    (hpairs _ _ (by decide) (by decide) rfl rfl rfl rfl).1.mp hbuilt,
    m, hm, hrepeat _ _ _ m hm, (hcaps 9 rfl).2.1 _ _ _ m hm⟩

end IntervalAutomata
