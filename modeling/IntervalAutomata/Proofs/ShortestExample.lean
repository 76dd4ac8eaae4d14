import IntervalAutomata.Operation.Analysis
import IntervalAutomata.Proofs.Acceptors
import IntervalAutomata.Proofs.BreadthFirst
import IntervalAutomata.Proofs.Emptiness
import Mathlib.Data.List.Forall2

/-! # The shortest example

The search follows a transition when its interval has a character, by the smallest one (`firstChar?`),
so it reaches exactly the states that texts lead to. It halts at the first of them that accepts. The
word under which a state was discovered spells a way to it (`Named`), and so the search comes up with
an accepted text or there is none.

Emptiness is another question when surrogates count: an automaton whose accepted words all hold a
surrogate is not empty and has no example. -/

namespace IntervalAutomata

/-! ## Characters and surrogates -/

def Symbol.IsSurrogate (n : Nat) : Prop := 0xD800 ≤ n ∧ n ≤ 0xDFFF

theorem Symbol.char?_toNat (c : Char) : Symbol.char? c.toNat = some c := dif_pos c.valid

theorem Symbol.char?_eq_none_iff {n : Nat} :
    Symbol.char? n = none ↔ Symbol.IsSurrogate n ∨ maxSymbol < n := by
  have hvalid : n.isValidChar ↔ ¬ (Symbol.IsSurrogate n ∨ maxSymbol < n) := by
    unfold Symbol.IsSurrogate maxSymbol Nat.isValidChar
    omega
  by_cases h : n.isValidChar
  · rw [Symbol.char?, dif_pos h]
    exact iff_of_false (Option.some_ne_none _) (hvalid.mp h)
  · rw [Symbol.char?, dif_neg h]
    exact iff_of_true rfl (not_not.mp (mt hvalid.mpr h))

theorem Symbol.not_isSurrogate_toNat (c : Char) : ¬ Symbol.IsSurrogate c.toNat := by
  intro h
  have hnone := Symbol.char?_eq_none_iff.mpr (.inl h)
  rw [Symbol.char?_toNat] at hnone
  cases hnone

/-- A word of the alphabet without surrogates is a text. -/
theorem exists_symbols_eq {w : List Nat} (h : ∀ n ∈ w, ¬ Symbol.IsSurrogate n ∧ n ≤ maxSymbol) :
    ∃ text, symbols text = w := by
  have hchars : ∃ cs : List Char, cs.map Char.toNat = w := by
    induction w with
    | nil => exact ⟨[], rfl⟩
    | cons n w ih =>
      obtain ⟨⟨hn, hmax⟩, hw⟩ := List.forall_mem_cons.mp h
      obtain ⟨cs, rfl⟩ := ih hw
      have hsome : Symbol.char? n ≠ none := fun hnone =>
        (Symbol.char?_eq_none_iff.mp hnone).elim hn (Nat.not_lt_of_le hmax)
      obtain ⟨c, hc⟩ := Option.ne_none_iff_exists'.mp hsome
      exact ⟨c :: cs, by rw [List.map_cons, Automaton.toNat_of_char? hc]⟩
  obtain ⟨cs, rfl⟩ := hchars
  exact ⟨String.ofList cs, by rw [symbols, String.toList_ofList]⟩

namespace Automaton

/-- The first character of an interval is its smallest, and without one it has none at all. -/
theorem firstChar?_spec {i : Interval} (hi : i.Proper) :
    match firstChar? i with
    | some c => i.contains c.toNat = true ∧
        ∀ d : Char, i.contains d.toNat = true → c.toNat ≤ d.toNat
    | none => ∀ d : Char, i.contains d.toNat = false := by
  unfold firstChar?
  cases hmin : Symbol.char? i.min with
  | some c =>
    have hc := toNat_of_char? hmin
    exact ⟨hc ▸ hi.contains_min, fun d hd => hc ▸ (Interval.contains_iff.mp hd).1⟩
  | none =>
    have hle := hi.min_le_max
    obtain ⟨hlow, hhigh⟩ | hout := Symbol.char?_eq_none_iff.mp hmin
    · -- the interval starts at a surrogate, so a character in it comes behind all of them
      have hbehind : ∀ d : Char, i.contains d.toNat = true → 0xE000 ≤ d.toNat := by
        intro d hd
        have hd := (Interval.contains_iff.mp hd).1
        have hchar := Symbol.not_isSurrogate_toNat d
        unfold Symbol.IsSurrogate at hchar
        omega
      rw [Option.none_or]
      by_cases hmax : i.max > 0xDFFF
      · rw [if_pos hmax, show Symbol.char? 0xE000 = some '\uE000' from rfl]
        exact ⟨Interval.contains_iff.mpr ⟨Nat.le_succ_of_le hhigh, hmax⟩, hbehind⟩
      · rw [if_neg hmax]
        intro d
        by_contra hd
        have hd := Bool.not_eq_false _ ▸ hd
        have := hbehind d hd
        have := (Interval.contains_iff.mp hd).2
        omega
    · exact absurd hi.max_le (by omega)

end Automaton

/-! ## Words of discovery -/

/-- A way along edges and what it spells, latest character first. -/
inductive Way {α : Type} (look : α → Row α Char) (x₀ : α) : List Char → α → Prop
  | start : Way look x₀ [] x₀
  | edge {word x d} : Way look x₀ word x → d ∈ (look x).edges → Way look x₀ (d.1 :: word) d.2

theorem Way.reaches {α : Type} {look : α → Row α Char} {x₀ x : α} {word : List Char}
    (h : Way look x₀ word x) : Reaches look [x₀] x := by
  induction h with
  | start => exact .start (List.mem_singleton.mpr rfl)
  | edge _ hd ih => exact ih.edge hd

/-- Each item has a word, which spells a way to it. -/
structure Named {α : Type} (look : α → Row α Char) (x₀ : α) (items : Array α)
    (words : Array (List Char)) : Prop where
  size_eq : words.size = items.size
  way : ∀ (i : Nat) x word, items[i]? = some x → words[i]? = some word → Way look x₀ word x

namespace Named

open Exploration Automaton

variable {α : Type} {cmp : α → α → Ordering} [Std.TransCmp cmp] [Std.LawfulEqCmp cmp]
variable {look : α → Row α Char} {x₀ x : α} {e f : Exploration α Char cmp} {i : Nat}
  {words : Array (List Char)}

theorem exists_word {items : Array α} (h : Named look x₀ items words) (hx : items[i]? = some x) :
    ∃ word, words[i]? = some word ∧ Way look x₀ word x := by
  have hlt : i < words.size := h.size_eq ▸ (Array.getElem?_eq_some_iff.mp hx).1
  exact ⟨_, Array.getElem?_eq_getElem hlt, h.way i x _ hx (Array.getElem?_eq_getElem hlt)⟩

/-- The target of an edge is known already, or it comes last, and so does its word. -/
theorem discover_cases (h : Named look x₀ e.items words) (he : Indexed e) {word : List Char}
    (hword : words[i]? = some word) (d : Char × α) :
    d.2 ∈ e.items ∧ e.note d.2 = e ∧ discover i words (d.1, (e.note d.2).numberOf d.2) = words ∨
      (e.note d.2).items = e.items.push d.2 ∧
        discover i words (d.1, (e.note d.2).numberOf d.2) = words.push (d.1 :: word) := by
  unfold discover
  dsimp only
  obtain ⟨hold, hnote⟩ | ⟨-, hitems, hnum⟩ := he.note_cases d.2
  · have hlt := he.numberOf_lt hold
    exact .inl ⟨hold, hnote, by rw [hnote, if_neg (by rw [h.size_eq]; omega)]⟩
  · refine .inr ⟨hitems, ?_⟩
    rw [hnum, if_pos h.size_eq.symm, Array.getD_eq_getD_getElem?, hword, Option.getD_some]

theorem note (h : Named look x₀ e.items words) (he : Indexed e) (hx : e.items[i]? = some x)
    {d : Char × α} (hd : d ∈ (look x).edges) :
    Named look x₀ (e.note d.2).items (discover i words (d.1, (e.note d.2).numberOf d.2)) := by
  obtain ⟨word, hword, hway⟩ := h.exists_word hx
  obtain ⟨-, hnote, hwords⟩ | ⟨hitems, hwords⟩ := h.discover_cases he hword d
  · rw [hwords, hnote]
    exact h
  · rw [hwords, hitems]
    refine ⟨by rw [Array.size_push, Array.size_push, h.size_eq], fun j y v hy hv => ?_⟩
    -- a new target and its word come last, so the places agree
    rw [Array.getElem?_push] at hy hv
    rw [h.size_eq] at hv
    split at hy
    · rename_i hj
      rw [if_pos hj] at hv
      rw [← Option.some.inj hy, ← Option.some.inj hv]
      exact hway.edge hd
    · rename_i hj
      rw [if_neg hj] at hv
      exact h.way j y v hy hv

/-- The edges of an item are gone through in step with the targets that are noted. What one edge
preserves, with the edges that are still to come, holds in the end. -/
theorem foldl_note_preserves
    (P : Exploration α Char cmp → Array (List Char) → List (Char × α) → Prop)
    (hstep : ∀ e words d todo, Indexed e → P e words (d :: todo) →
      P (e.note d.2) (discover i words (d.1, (e.note d.2).numberOf d.2)) todo)
    {edges : List (Char × α)} (he : Indexed e) (hf : Indexed f)
    (hgrow : Grows ((edges.map (·.2)).foldl Exploration.note e) f) (h : P e words edges) :
    P ((edges.map (·.2)).foldl Exploration.note e)
      ((edges.map fun d => (d.1, f.numberOf d.2)).foldl (discover i) words) [] := by
  induction edges generalizing e words with
  | nil => exact h
  | cons d edges ih =>
    rw [List.map_cons, List.foldl_cons] at hgrow
    have hnote := he.note d.2
    have hnum : f.numberOf d.2 = (e.note d.2).numberOf d.2 :=
      ((grows_foldl_note _ _).trans hgrow).numberOf_eq hnote hf (he.mem_note.mpr (.inr rfl))
    rw [List.map_cons, List.map_cons, List.foldl_cons, List.foldl_cons, hnum]
    exact ih hnote hgrow (hstep e words d edges he h)

theorem foldl_note (h : Named look x₀ e.items words) (he : Indexed e) (hx : e.items[i]? = some x)
    (hf : Indexed f) (hgrow : Grows (((look x).edges.map (·.2)).foldl Exploration.note e) f) :
    Named look x₀ (((look x).edges.map (·.2)).foldl Exploration.note e).items
      (((look x).edges.map fun d => (d.1, f.numberOf d.2)).foldl (discover i) words) := by
  refine (foldl_note_preserves (fun e words todo => Named look x₀ e.items words ∧
    e.items[i]? = some x ∧ ∀ d ∈ todo, d ∈ (look x).edges) ?_ he hf hgrow ⟨h, hx, fun d hd => hd⟩).1
  intro e words d todo he ⟨hnamed, hx, htodo⟩
  obtain ⟨hd, htodo⟩ := List.forall_mem_cons.mp htodo
  exact ⟨hnamed.note he hx hd, grows_note e d.2 i x hx, htodo⟩

theorem discoveryWords_concat (rows : List (Row Nat Char)) (row : Row Nat Char) :
    discoveryWords (rows ++ [row]) = row.edges.foldl (discover rows.length) (discoveryWords rows) := by
  rw [discoveryWords, List.zipIdx_append, List.foldl_append]
  simp [discoveryWords]

theorem discoveryWords_expand (e : Exploration α Char cmp) (row : Row α Char) :
    discoveryWords (e.expand row).rows.toList =
      (row.edges.map fun d => (d.1, (e.expand row).numberOf d.2)).foldl (discover e.rows.size)
        (discoveryWords e.rows.toList) := by
  rw [rows_expand, Array.toList_push, discoveryWords_concat, Array.length_toList]
  rfl

theorem expand (h : Named look x₀ e.items (discoveryWords e.rows.toList)) (he : Indexed e)
    (hx : e.next? = some x) :
    Named look x₀ (e.expand (look x)).items (discoveryWords (e.expand (look x)).rows.toList) := by
  rw [discoveryWords_expand, items_expand]
  exact h.foldl_note he hx (he.expand (look x)) (foldl_note_grows_expand e (look x))

theorem start (x₀ : α) :
    Named look x₀ ([x₀].foldl Exploration.note (empty : Exploration α Char cmp)).items
      (discoveryWords ([x₀].foldl Exploration.note (empty : Exploration α Char cmp)).rows.toList) := by
  rw [rows_foldl_note, items_start]
  refine ⟨rfl, fun i x word hx hword => ?_⟩
  obtain ⟨hi, rfl⟩ := Array.getElem?_eq_some_iff.mp hx
  obtain rfl : i = 0 := Nat.lt_one_iff.mp hi
  obtain rfl := Option.some.inj hword
  exact .start

theorem of_exploreUntil? {stop : α → Bool} {bound : Nat}
    (h : exploreUntil? cmp bound stop look [x₀] = some e) :
    Named look x₀ e.items (discoveryWords e.rows.toList) := by
  refine (run_preserves (fun e => Indexed e ∧ Named look x₀ e.items (discoveryWords e.rows.toList))
    ?_ ⟨indexed_empty.foldl_note [x₀], .start x₀⟩ h).2
  intro e x ⟨he, hnamed⟩ hx _
  exact ⟨he.expand _, hnamed.expand he hx⟩

end Named

/-! ## The search -/

namespace Automaton

open Exploration

variable {a : Automaton} {p q : Nat} {text : String}

theorem mem_edges_charRow {d : Char × Nat} : d ∈ (a.charRow q).edges ↔
    ∃ t ∈ a.transitions q, firstChar? t.interval = some d.1 ∧ t.target = d.2 := by
  simp [charRow, Prod.ext_iff]

/-- An edge is a step by its character. -/
theorem Valid.step_of_edge (ha : a.Valid) {d : Char × Nat} (hd : d ∈ (a.charRow q).edges) :
    a.Step q d.1.toNat d.2 := by
  obtain ⟨t, ht, hfirst, htarget⟩ := mem_edges_charRow.mp hd
  have hspec := firstChar?_spec (ha.proper q t ht)
  rw [hfirst] at hspec
  exact ⟨t, ht, hspec.1, htarget⟩

/-- A step by a character has an edge, though perhaps with a smaller character. -/
theorem Valid.edge_of_step (ha : a.Valid) {c : Char} (h : a.Step p c.toNat q) :
    ∃ d ∈ (a.charRow p).edges, d.2 = q ∧ d.1 ≤ c := by
  obtain ⟨t, ht, hc, rfl⟩ := h
  have hspec := firstChar?_spec (ha.proper p t ht)
  cases hfirst : firstChar? t.interval with
  | some d =>
    rw [hfirst] at hspec
    exact ⟨(d, t.target), mem_edges_charRow.mpr ⟨t, ht, hfirst, rfl⟩, rfl, hspec.2 c hc⟩
  | none =>
    rw [hfirst] at hspec
    rw [hspec c] at hc
    cases hc

theorem Valid.path_of_way (ha : a.Valid) {word : List Char} (h : Way a.charRow p word q) :
    a.Path p (word.reverse.map Char.toNat) q := by
  induction h with
  | start => exact .nil p
  | edge _ hd ih =>
    rw [List.reverse_cons, List.map_append]
    exact ih.snoc (ha.step_of_edge hd)

/-- Beside a path there is a way of the same length that is nowhere greater. -/
theorem Valid.exists_way (ha : a.Valid) {cs : List Char} (h : a.Path p (cs.map Char.toNat) q) :
    ∃ word, Way a.charRow p word q ∧ List.Forall₂ (· ≤ ·) word.reverse cs := by
  induction cs using List.reverseRecOn generalizing q with
  | nil => exact ⟨[], path_nil_iff.mp h ▸ .start, .nil⟩
  | append_singleton cs c ih =>
    rw [List.map_append, path_append_iff] at h
    obtain ⟨r, hcs, hc⟩ := h
    obtain ⟨s, hstep, hs⟩ := path_cons_iff.mp hc
    obtain ⟨word, hway, hle⟩ := ih hcs
    obtain ⟨d, hd, rfl, hdc⟩ := ha.edge_of_step hstep
    refine ⟨d.1 :: word, path_nil_iff.mp hs ▸ hway.edge hd, ?_⟩
    rw [List.reverse_cons]
    exact List.rel_append hle (.cons hdc .nil)

/-- The search reaches the states that texts lead to. -/
theorem Valid.reaches_charRow_iff (ha : a.Valid) :
    Reaches a.charRow [a.initial] q ↔ ∃ cs : List Char, a.Path a.initial (cs.map Char.toNat) q := by
  constructor
  · intro h
    induction h with
    | start hq => exact ⟨[], by rw [List.mem_singleton.mp hq]; exact .nil _⟩
    | @edge x d _ hd ih =>
      obtain ⟨cs, hcs⟩ := ih
      exact ⟨cs ++ [d.1], by rw [List.map_append]; exact hcs.snoc (ha.step_of_edge hd)⟩
  · intro ⟨cs, hcs⟩
    obtain ⟨word, hway, -⟩ := ha.exists_way hcs
    exact hway.reaches

theorem Valid.bounded_charRow (ha : a.Valid) : Bounded a.charRow [a.initial] a.size :=
  bounded_of_lt fun _ hq =>
    have ⟨_, hcs⟩ := ha.reaches_charRow_iff.mp hq
    ha.path_lt hcs ha.initial_lt

/-- Where the text is not known, the example is the word of the state at which the search halts. -/
theorem Valid.exists_search (ha : a.Valid) (hunknown : a.singleton = none) :
    ∃ e, exploreUntil? compare a.size a.isAccepting a.charRow [a.initial] = some e ∧
      Halted a.charRow [a.initial] a.isAccepting e ∧
      a.shortestExample = e.next?.map fun _ =>
        String.ofList ((discoveryWords e.rows.toList).getD e.rows.size []).reverse := by
  obtain ⟨e, hsome, hhalted⟩ := exists_exploreUntil? compare a.isAccepting ha.bounded_charRow
  refine ⟨e, hsome, hhalted, ?_⟩
  rw [shortestExample, hunknown]
  dsimp only
  rw [hsome, Option.bind_eq_bind, Option.bind_some]
  cases e.next? <;> rfl

/-- **The example is an accepted text**, whether it is known or searched for. -/
theorem WellFormed.run_shortestExample (ha : a.WellFormed) (h : a.shortestExample = some text) :
    a.run text = true := by
  rw [ha.run_iff]
  cases hs : a.singleton with
  | some s =>
    rw [shortestExample, hs] at h
    rw [ha.known s hs, Option.some.inj h]
    rfl
  | none =>
    obtain ⟨e, hsome, hhalted, hexample⟩ := ha.exists_search hs
    obtain ⟨q, hq, hword⟩ := Option.map_eq_some_iff.mp (hexample.symm.trans h)
    obtain ⟨word, hfound, hway⟩ := (Named.of_exploreUntil? hsome).exists_word hq
    rw [Array.getD_eq_getD_getElem?, hfound, Option.getD_some] at hword
    rw [← hword, symbols, String.toList_ofList]
    exact ⟨q, ha.path_of_way hway, hhalted.stops q hq⟩

/-- **There is no example exactly when no text is accepted.** -/
theorem WellFormed.shortestExample_eq_none_iff (ha : a.WellFormed) :
    a.shortestExample = none ↔ ∀ text, a.run text = false := by
  constructor
  · intro h text
    cases hs : a.singleton with
    | some s =>
      rw [shortestExample, hs] at h
      cases h
    | none =>
      obtain ⟨e, -, hhalted, hexample⟩ := ha.exists_search hs
      have hend := hhalted.next?_eq_none_iff.mp (Option.map_eq_none_iff.mp (hexample.symm.trans h))
      rw [← Bool.not_eq_true, ha.run_iff]
      intro ⟨q, hw, hq⟩
      rw [hend q (ha.reaches_charRow_iff.mpr ⟨text.toList, hw⟩)] at hq
      cases hq
  · intro h
    by_contra hsome
    obtain ⟨text, htext⟩ := Option.ne_none_iff_exists'.mp hsome
    have hrun := ha.run_shortestExample htext
    rw [h text] at hrun
    cases hrun

/-! ## Emptiness and examples -/

/-- There is no example exactly when every accepted word holds a surrogate. -/
theorem WellFormed.shortestExample_eq_none_iff_isSurrogate (ha : a.WellFormed) :
    a.shortestExample = none ↔ ∀ w ∈ a.language, ∃ n ∈ w, Symbol.IsSurrogate n := by
  rw [ha.shortestExample_eq_none_iff]
  constructor
  · intro h w hw
    by_contra hnone
    obtain ⟨text, rfl⟩ := exists_symbols_eq fun n hn =>
      ⟨fun hsurrogate => hnone ⟨n, hn, hsurrogate⟩, ha.le_maxSymbol_of_mem_residual hw n hn⟩
    have hrun := (ha.run_iff text).mpr hw
    rw [h text] at hrun
    cases hrun
  · intro h text
    rw [← Bool.not_eq_true, ha.run_iff]
    intro hw
    obtain ⟨n, hn, hsurrogate⟩ := h _ hw
    obtain ⟨c, -, rfl⟩ := List.mem_map.mp hn
    exact Symbol.not_isSurrogate_toNat c hsurrogate

/-- **Emptiness counts surrogates and examples do not.** They go together except where words are
accepted but no text is. -/
theorem WellFormed.emptiness_and_examples (ha : a.WellFormed) :
    (a.isEmpty = true ↔ ∀ w, w ∉ a.language) ∧
    (a.shortestExample = none ↔ ∀ w ∈ a.language, ∃ n ∈ w, Symbol.IsSurrogate n) ∧
    ((a.isEmpty = true ↔ a.shortestExample = none) ↔
      ((∃ w, w ∈ a.language) → ∃ text, a.run text = true)) := by
  have hempty : a.isEmpty = true ↔ ∀ w, w ∉ a.language := by
    rw [ha.isEmpty_iff, ← not_live_initial_iff]
    exact not_exists
  refine ⟨hempty, ha.shortestExample_eq_none_iff_isSurrogate, ?_⟩
  rw [hempty, ha.shortestExample_eq_none_iff]
  constructor
  · intro h hword
    by_contra hnone
    have htexts : ∀ text, a.run text = false := by simpa using hnone
    obtain ⟨w, hw⟩ := hword
    exact h.mpr htexts w hw
  · intro h
    refine ⟨fun hnone text => ?_, fun htexts w hw => ?_⟩
    · rw [← Bool.not_eq_true, ha.run_iff]
      exact hnone _
    · obtain ⟨text, htext⟩ := h ⟨w, hw⟩
      rw [htexts text] at htext
      cases htext

/-- An interval that starts with surrogates and ends with two characters. -/
theorem emptiness_and_examples_mixed :
    (interval ⟨0xD800, 0xE001⟩).WellFormed ∧
    ((interval ⟨0xD800, 0xE001⟩).isEmpty = true ↔
      (interval ⟨0xD800, 0xE001⟩).shortestExample = none) ∧
    (interval ⟨0xD800, 0xE001⟩).isEmpty ≠ true := by
  have ha : (interval ⟨0xD800, 0xE001⟩).WellFormed := wellFormed_interval (by decide)
  obtain ⟨hempty, -, htogether⟩ := ha.emptiness_and_examples
  have haccepted : (interval ⟨0xD800, 0xE001⟩).run "\uE000" = true := by decide
  have hword := (ha.run_iff "\uE000").mp haccepted
  exact ⟨ha, htogether.mpr fun _ => ⟨_, haccepted⟩, fun h => hempty.mp h _ hword⟩

/-- All surrogates and nothing else, where no text is accepted but the automaton is not empty. -/
theorem not_isEmpty_surrogates :
    (interval ⟨0xD800, 0xDFFF⟩).WellFormed ∧
    (∀ text, (interval ⟨0xD800, 0xDFFF⟩).run text = false) ∧
    ¬ ((interval ⟨0xD800, 0xDFFF⟩).isEmpty = true ↔
      (interval ⟨0xD800, 0xDFFF⟩).shortestExample = none) := by
  have ha : (interval ⟨0xD800, 0xDFFF⟩).WellFormed := wellFormed_interval (by decide)
  have hnone : (interval ⟨0xD800, 0xDFFF⟩).shortestExample = none := by
    rw [ha.shortestExample_eq_none_iff_isSurrogate]
    intro w hw
    obtain ⟨c, hc, rfl⟩ := mem_language_interval.mp hw
    exact ⟨c, List.mem_singleton.mpr rfl, Interval.contains_iff.mp hc⟩
  refine ⟨ha, ha.shortestExample_eq_none_iff.mp hnone, fun h => ?_⟩
  have hzero := ha.isEmpty_iff.mp (h.mpr hnone)
  have hword : [0xD800] ∈ (interval ⟨0xD800, 0xDFFF⟩).language :=
    mem_language_interval.mpr ⟨0xD800, by decide, rfl⟩
  rw [hzero] at hword
  exact Language.notMem_zero _ hword

end Automaton

end IntervalAutomata
