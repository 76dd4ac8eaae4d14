import IntervalAutomata.Proofs.Arrays
import IntervalAutomata.Proofs.ShortestExample
import Mathlib.Data.Prod.Lex
import Mathlib.Data.String.Basic

/-! # The least example

The search meets words in order (`Ranked`): each comes before those that are found later, and before
all that go on from the item that is next. Of the order this takes no more than that words grow along
edges and that the edges of an item are in order (`Precedence`). The lengths of words are such an order
for every automaton. The shorter word first, and of two words of one length the smaller one, is such an
order for a deterministic automaton, whose transitions start at greater and greater characters.

So the word of the item at which the search halts does not come after any way to an item like it. A
text need not be spelt by a way, which takes only first characters of intervals; but beside its path
there is a way of the same length through the same states that is nowhere greater. -/

namespace IntervalAutomata

open Relation

section

/-- An order of words, latest character first, that fits a search along the edges of `look`. -/
structure Precedence {α : Type} (look : α → Row α Char) (before : List Char → List Char → Prop) :
    Prop where
  trans {u v w : List Char} : before u v → before v w → before u w
  extend {u v : List Char} (c d : Char) : before u v → before (c :: u) (d :: v)
  grow (u : List Char) (c : Char) : before u (c :: u)
  edges (x : α) (u : List Char) :
    (look x).edges.Pairwise fun d d' => before (d.1 :: u) (d'.1 :: u)

variable {α : Type} {look : α → Row α Char} {before : List Char → List Char → Prop}
  {u v w : List Char}

theorem Precedence.trans_upto (h : Precedence look before) (huv : ReflGen before u v)
    (hvw : ReflGen before v w) : ReflGen before u w := by
  cases huv with
  | refl => exact hvw
  | single huv =>
    cases hvw with
    | refl => exact .single huv
    | single hvw => exact .single (h.trans huv hvw)

theorem Precedence.extend_upto (h : Precedence look before) (huv : ReflGen before u v) (c : Char) :
    ReflGen before (c :: u) (c :: v) := by
  cases huv with
  | refl => exact .refl
  | single huv => exact .single (h.extend c c huv)

/-- The target of an edge has a word that does not come after the one that `u` spells along the edge. -/
def Met (before : List Char → List Char → Prop) (items : Array α) (words : Array (List Char))
    (u : List Char) (d : Char × α) : Prop :=
  ∃ (j : Nat) (v : List Char), items[j]? = some d.2 ∧ words[j]? = some v ∧ ReflGen before v (d.1 :: u)

theorem Met.mono {items items' : Array α} {words words' : Array (List Char)} {d : Char × α}
    (h : Met before items words u d) (hitems : ∀ (j : Nat) y, items[j]? = some y → items'[j]? = some y)
    (hwords : ∀ (j : Nat) v, words[j]? = some v → words'[j]? = some v) :
    Met before items' words' u d := by
  obtain ⟨j, v, hj, hv, hle⟩ := h
  exact ⟨j, v, hitems j _ hj, hwords j v hv, hle⟩

end

section

open Exploration Automaton

variable {α : Type} {cmp : α → α → Ordering} {look : α → Row α Char}
  {before : List Char → List Char → Prop} {x₀ x : α} {e : Exploration α Char cmp} {i : Nat}
  {words old : Array (List Char)} {u v w : List Char} {d : Char × α} {todo : List (Char × α)}

/-! ## Words in order -/

/-- Words are in order, those found so far come before all that go on from the next item, and the
edges of the items that have rows have been met. -/
structure Ranked (look : α → Row α Char) (before : List Char → List Char → Prop) (x₀ : α)
    (e : Exploration α Char cmp) (words : Array (List Char)) : Prop extends
    Named look x₀ e.items words where
  first : e.items[0]? = some x₀ ∧ words[0]? = some []
  ordered : words.toList.Pairwise before
  ahead : ∀ w ∈ words, ∀ v c, words[e.rows.size]? = some v → before w (c :: v)
  met : ∀ (i : Nat) x u, i < e.rows.size → e.items[i]? = some x → words[i]? = some u →
    ∀ d ∈ (look x).edges, Met before e.items words u d

theorem before_of_lt (h : words.toList.Pairwise before) {i j : Nat} (hij : i < j)
    (hu : words[i]? = some u) (hv : words[j]? = some v) : before u v := by
  obtain ⟨hi, rfl⟩ := Array.getElem?_eq_some_iff.mp hu
  obtain ⟨hj, rfl⟩ := Array.getElem?_eq_some_iff.mp hv
  exact List.pairwise_iff_getElem.mp h i j hi hj hij

/-- No way is before the words: what it leads to is passed with a word that does not come after it, or
the word of the next item does not come after it. -/
theorem Ranked.upto_way (h : Ranked look before x₀ e words) (hp : Precedence look before)
    (hnext : words[e.rows.size]? = some w) (hway : Way look x₀ v x) :
    (∃ (i : Nat) (u : List Char), i < e.rows.size ∧ e.items[i]? = some x ∧ words[i]? = some u ∧
      ReflGen before u v) ∨ ReflGen before w v := by
  induction hway with
  | start =>
    rcases Nat.eq_zero_or_pos e.rows.size with hzero | hpos
    · rw [hzero, h.first.2] at hnext
      exact .inr (Option.some.inj hnext ▸ .refl)
    · exact .inl ⟨0, [], hpos, h.first.1, h.first.2, .refl⟩
  | @edge v x d _ hd ih =>
    obtain ⟨i, u, hi, hx, hu, hle⟩ | hle := ih
    · obtain ⟨j, u', hj, hu', hle'⟩ := h.met i x u hi hx hu d hd
      have hedge := hp.trans_upto hle' (hp.extend_upto hle d.1)
      rcases Nat.lt_trichotomy j e.rows.size with hlt | rfl | hlt
      · exact .inl ⟨j, u', hlt, hj, hu', hedge⟩
      · exact .inr (Option.some.inj (hu'.symm.trans hnext) ▸ hedge)
      · exact .inr (hp.trans_upto (.single (before_of_lt h.ordered hlt hnext hu')) hedge)
    · exact .inr (hp.trans_upto hle (.single (hp.grow v d.1)))

variable [Std.TransCmp cmp] [Std.LawfulEqCmp cmp]

/-! ## One row -/

/-- On the way through the row of item `i`, whose word is `u`. Where the row began, the words were
`old`. The words found so far come before those of the edges that are still to come. -/
structure Midway (look : α → Row α Char) (before : List Char → List Char → Prop) (x₀ x : α) (i : Nat)
    (u : List Char) (old : Array (List Char)) (e : Exploration α Char cmp)
    (words : Array (List Char)) (todo : List (Char × α)) : Prop where
  named : Named look x₀ e.items words
  item : e.items[i]? = some x
  word : words[i]? = some u
  kept : ∀ (j : Nat) v, old[j]? = some v → words[j]? = some v
  todo_mem : ∀ d ∈ todo, d ∈ (look x).edges
  todo_ordered : todo.Pairwise fun d d' => before (d.1 :: u) (d'.1 :: u)
  ordered : words.toList.Pairwise before
  ahead : ∀ w ∈ words, ∀ d ∈ todo, before w (d.1 :: u)
  behind : ∀ w ∈ words, ∀ v c, before u v → before w (c :: v)
  met : ∀ d ∈ (look x).edges, d ∈ todo ∨ Met before e.items words u d

/-- The word of a target is there already, or it is the one that the edge spells. -/
theorem Midway.met_first (h : Midway look before x₀ x i u old e words (d :: todo)) (he : Indexed e) :
    let found := discover i words (d.1, (e.note d.2).numberOf d.2)
    (∀ (j : Nat) v, words[j]? = some v → found[j]? = some v) ∧
      (∀ w ∈ found, w ∈ words ∨ w = d.1 :: u) ∧ found.toList.Pairwise before ∧
      Met before (e.note d.2).items found u d := by
  have hahead : ∀ w ∈ words, before w (d.1 :: u) := fun w hw => h.ahead w hw d (.head _)
  obtain ⟨hold, hnote, hwords⟩ | ⟨hitems, hwords⟩ := h.named.discover_cases he h.word d
  · rw [hwords, hnote]
    obtain ⟨j, hj⟩ := Array.mem_iff_getElem?.mp hold
    obtain ⟨v, hv, -⟩ := h.named.exists_word hj
    exact ⟨fun _ _ hv => hv, fun w hw => .inl hw, h.ordered, j, v, hj, hv,
      .single (hahead v (Array.mem_of_getElem? hv))⟩
  · rw [hwords, hitems]
    refine ⟨fun _ _ hv => getElem?_push_of_some hv _, fun w hw => Array.mem_push.mp hw, ?_,
      words.size, d.1 :: u, ?_, Array.getElem?_push_size, .refl⟩
    · rw [Array.toList_push, List.pairwise_append]
      refine ⟨h.ordered, List.pairwise_singleton _ _, fun w hw v hv => ?_⟩
      rw [List.mem_singleton.mp hv]
      exact hahead w (Array.mem_toList_iff.mp hw)
    · rw [h.named.size_eq, Array.getElem?_push_size]

theorem Midway.note (h : Midway look before x₀ x i u old e words (d :: todo))
    (hp : Precedence look before) (he : Indexed e) :
    Midway look before x₀ x i u old (e.note d.2)
      (discover i words (d.1, (e.note d.2).numberOf d.2)) todo := by
  obtain ⟨hd, htodo⟩ := List.forall_mem_cons.mp h.todo_mem
  obtain ⟨hfirst, hrest⟩ := List.pairwise_cons.mp h.todo_ordered
  obtain ⟨hkept, hfound, hordered, hmet⟩ := h.met_first he
  exact
    { named := h.named.note he h.item hd
      item := grows_note e d.2 i x h.item
      word := hkept i u h.word
      kept := fun j v hv => hkept j v (h.kept j v hv)
      todo_mem := htodo
      todo_ordered := hrest
      ordered := hordered
      ahead := by
        intro w hw d' hd'
        obtain hw | rfl := hfound w hw
        · exact h.ahead w hw d' (.tail _ hd')
        · exact hfirst d' hd'
      behind := by
        intro w hw v c huv
        obtain hw | rfl := hfound w hw
        · exact h.behind w hw v c huv
        · exact hp.extend d.1 c huv
      met := by
        intro d' hd'
        obtain htodo | hmet' := h.met d' hd'
        · obtain rfl | htodo := List.mem_cons.mp htodo
          · exact .inr hmet
          · exact .inl htodo
        · exact .inr (hmet'.mono (grows_note e d.2) hkept) }

/-! ## The whole search -/

theorem Ranked.expand (h : Ranked look before x₀ e (discoveryWords e.rows.toList))
    (hp : Precedence look before) (he : Indexed e) (hx : e.next? = some x) :
    Ranked look before x₀ (e.expand (look x)) (discoveryWords (e.expand (look x)).rows.toList) := by
  obtain ⟨u, hu, -⟩ := h.exists_word hx
  have hgrow := foldl_note_grows_expand e (look x)
  have hbegin : Midway look before x₀ x e.rows.size u (discoveryWords e.rows.toList) e
      (discoveryWords e.rows.toList) (look x).edges := by
    refine ⟨h.toNamed, hx, hu, fun _ _ hv => hv, fun d hd => hd, hp.edges x u, h.ordered,
      fun w hw d _ => h.ahead w hw u d.1 hu, fun w hw v c huv => ?_, fun d hd => .inl hd⟩
    exact hp.trans (h.ahead w hw u c hu) (hp.extend c c huv)
  have hend := Named.foldl_note_preserves (Midway look before x₀ x e.rows.size u _)
    (fun e words d todo he h => h.note hp he) he (he.expand (look x)) hgrow hbegin
  rw [← Named.discoveryWords_expand] at hend
  have hsize : (e.expand (look x)).rows.size = e.rows.size + 1 := by rw [rows_expand, Array.size_push]
  have hitems := grows_expand e (look x)
  refine ⟨?_, ⟨hitems 0 x₀ h.first.1, hend.kept 0 [] h.first.2⟩, hend.ordered, ?_, ?_⟩
  · rw [items_expand]
    exact hend.named
  · intro w hw v c hv
    rw [hsize] at hv
    exact hend.behind w hw v c (before_of_lt hend.ordered (Nat.lt_succ_self _) hend.word hv)
  · intro i y v hi hy hv d hd
    rcases expand_cases hx _ hi hy with ⟨rfl, rfl⟩ | ⟨hi, hy⟩
    · obtain hnone | hmet := hend.met d hd
      · cases hnone
      · obtain rfl := Option.some.inj (hend.word.symm.trans hv)
        exact hmet.mono hgrow fun _ _ hv => hv
    · obtain ⟨word, hword, -⟩ := h.exists_word hy
      obtain rfl := Option.some.inj ((hend.kept i word hword).symm.trans hv)
      exact (h.met i y word hi hy hword d hd).mono hitems hend.kept

theorem Ranked.start (hp : Precedence look before) (x₀ : α) :
    Ranked look before x₀ ([x₀].foldl Exploration.note (empty : Exploration α Char cmp))
      (discoveryWords ([x₀].foldl Exploration.note (empty : Exploration α Char cmp)).rows.toList) := by
  refine ⟨.start x₀, ?_, ?_, ?_, ?_⟩
  all_goals rw [rows_foldl_note]
  · rw [items_start]
    exact ⟨rfl, rfl⟩
  · exact List.pairwise_singleton _ _
  · intro w hw v c hv
    obtain rfl := Option.some.inj hv
    rw [List.mem_singleton.mp (Array.mem_toList_iff.mpr hw)]
    exact hp.grow [] c
  · exact fun i _ _ hi => absurd hi (Nat.not_lt_zero i)

theorem Ranked.of_exploreUntil? (hp : Precedence look before) {stop : α → Bool} {bound : Nat}
    (h : exploreUntil? cmp bound stop look [x₀] = some e) :
    Ranked look before x₀ e (discoveryWords e.rows.toList) := by
  refine (run_preserves
    (fun e => Indexed e ∧ Ranked look before x₀ e (discoveryWords e.rows.toList)) ?_
    ⟨indexed_empty.foldl_note [x₀], .start hp x₀⟩ h).2
  intro e x ⟨he, hranked⟩ hx _
  exact ⟨he.expand _, hranked.expand hp he hx⟩

end

/-! ## Two orders -/

/-- Where a word, latest character first, stands when shorter words come first, and then smaller ones. -/
def place (u : List Char) : Nat ×ₗ List Char := toLex (u.length, u.reverse)

theorem place_lt_iff {u v : List Char} :
    place u < place v ↔ u.length < v.length ∨ u.length = v.length ∧ u.reverse < v.reverse :=
  Prod.Lex.toLex_lt_toLex

theorem append_lt_append {u v : List Char} (hlength : u.length = v.length)
    (h : List.Lex (· < ·) u v) (u' v' : List Char) : u ++ u' < v ++ v' := by
  induction h with
  | nil => cases hlength
  | rel hcd => exact .rel hcd
  | cons _ ih => exact .cons (ih (Nat.succ.inj hlength))

theorem precedence_length {α : Type} (look : α → Row α Char) :
    Precedence look fun u v => u.length ≤ v.length where
  trans := Nat.le_trans
  extend _ _ h := Nat.succ_le_succ h
  grow _ _ := Nat.le_succ _
  edges _ _ := List.pairwise_of_forall fun _ _ => Nat.le_refl _

theorem precedence_place {α : Type} {look : α → Row α Char}
    (h : ∀ x, (look x).edges.Pairwise fun d d' => d.1 < d'.1) :
    Precedence look fun u v => place u < place v where
  trans := lt_trans
  extend {u v} c d huv := by
    rw [place_lt_iff] at huv ⊢
    rw [List.length_cons, List.length_cons, List.reverse_cons, List.reverse_cons]
    obtain hlength | ⟨hlength, hless⟩ := huv
    · exact .inl (Nat.succ_lt_succ hlength)
    · refine .inr ⟨congrArg Nat.succ hlength, append_lt_append ?_ hless [c] [d]⟩
      rw [List.length_reverse, List.length_reverse, hlength]
  grow u c := place_lt_iff.mpr (.inl (Nat.lt_succ_self _))
  edges x u := (h x).imp fun hdd' => by
    refine place_lt_iff.mpr (.inr ⟨rfl, ?_⟩)
    rw [List.reverse_cons, List.reverse_cons]
    exact List.Lex.append_left _ (.rel hdd') _

/-! ## Texts -/

namespace Automaton

open Exploration

variable {a : Automaton} {p q : Nat} {text other : String}

/-- The edges of a deterministic automaton go up. -/
theorem Valid.edges_ascend (ha : a.Valid) (hs : a.Separated) (q : Nat) :
    (a.charRow q).edges.Pairwise fun d d' => d.1 < d'.1 := by
  refine List.pairwise_filterMap.mpr ((ha.apart hs q).imp_of_mem ?_)
  intro t t' ht ht' hlt d hd d' hd'
  obtain ⟨c, hfirst, rfl⟩ := Option.map_eq_some_iff.mp hd
  obtain ⟨c', hfirst', rfl⟩ := Option.map_eq_some_iff.mp hd'
  have hc := firstChar?_spec (ha.proper q t ht)
  have hc' := firstChar?_spec (ha.proper q t' ht')
  rw [hfirst] at hc
  rw [hfirst'] at hc'
  have hmax := (Interval.contains_iff.mp hc.1).2
  have hmin := (Interval.contains_iff.mp hc'.1).1
  exact Nat.lt_of_le_of_lt hmax (Nat.lt_of_lt_of_le hlt hmin)

theorem le_of_forall₂ {cs ds : List Char} (h : List.Forall₂ (· ≤ ·) cs ds) : cs ≤ ds := by
  induction h with
  | nil => exact le_refl _
  | @cons c d cs ds hcd _ ih =>
    obtain hlt | rfl := lt_or_eq_of_le hcd
    · exact le_of_lt (List.Lex.rel hlt)
    · exact List.cons_le_cons c ih

/-- Where the text is not known, the example is spelt by a word that, in every order that fits the
search, does not come after a way to an accepting state. -/
theorem Valid.upto_of_shortestExample (ha : a.Valid) (hunknown : a.singleton = none)
    (h : a.shortestExample = some text) {before : List Char → List Char → Prop}
    (hp : Precedence a.charRow before) {word : List Char} (hway : Way a.charRow a.initial word q)
    (hq : a.isAccepting q = true) : Relation.ReflGen before text.toList.reverse word := by
  obtain ⟨e, hsome, hhalted, hexample⟩ := ha.exists_search hunknown
  have hranked := Ranked.of_exploreUntil? hp hsome
  obtain ⟨x, hx, hword⟩ := Option.map_eq_some_iff.mp (hexample.symm.trans h)
  obtain ⟨w, hw, -⟩ := hranked.exists_word hx
  rw [Array.getD_eq_getD_getElem?, hw, Option.getD_some] at hword
  rw [← hword, String.toList_ofList, List.reverse_reverse]
  obtain ⟨i, u, hi, hy, -⟩ | hle := hranked.upto_way hp hw hway
  · have hpass := hhalted.passed i q hi hy
    rw [hq] at hpass
    cases hpass
  · exact hle

/-- Beside an accepted text there is a way to an accepting state. -/
theorem WellFormed.exists_way_of_run (ha : a.WellFormed) (h : a.run other = true) :
    ∃ q word, a.isAccepting q = true ∧ Way a.charRow a.initial word q ∧
      word.length = other.length ∧ word.reverse ≤ other.toList := by
  obtain ⟨q, hpath, hq⟩ := (ha.run_iff other).mp h
  obtain ⟨word, hway, hbeside⟩ := ha.exists_way hpath
  refine ⟨q, word, hq, hway, ?_, le_of_forall₂ hbeside⟩
  rw [← List.length_reverse, hbeside.length_eq, String.length_toList]

theorem WellFormed.shortestExample_length_le (ha : a.WellFormed) (hunknown : a.singleton = none)
    (h : a.shortestExample = some text) (hother : a.run other = true) :
    text.length ≤ other.length := by
  obtain ⟨q, word, hq, hway, hlength, -⟩ := ha.exists_way_of_run hother
  have hle := ha.upto_of_shortestExample hunknown h (precedence_length _) hway hq
  rw [← hlength, ← String.length_toList, ← List.length_reverse]
  cases hle with
  | refl => exact Nat.le_refl _
  | single hle => exact hle

theorem WellFormed.shortestExample_le (ha : a.WellFormed) (hunknown : a.singleton = none)
    (h : a.shortestExample = some text) (hdet : a.deterministic = true) (hother : a.run other = true)
    (hsame : other.length = text.length) : text ≤ other := by
  obtain ⟨q, word, hq, hway, hlength, hword⟩ := ha.exists_way_of_run hother
  have hp := precedence_place (ha.edges_ascend (ha.separated hdet))
  refine String.le_iff_toList_le.mpr (le_trans ?_ hword)
  cases ha.upto_of_shortestExample hunknown h hp hway hq with
  | refl => rw [List.reverse_reverse]
  | single hless =>
    obtain hshorter | ⟨-, hless⟩ := place_lt_iff.mp hless
    · rw [List.length_reverse, String.length_toList] at hshorter
      omega
    · rw [List.reverse_reverse] at hless
      exact le_of_lt hless

/-- **The shortest example is the least one.** There is none exactly when no text is accepted;
otherwise it is accepted and no accepted text is shorter, and if the automaton is deterministic, none
of its length is smaller. -/
theorem WellFormed.shortestExample_least (ha : a.WellFormed) :
    (a.shortestExample = none ↔ ∀ text, a.run text = false) ∧
    ∀ text, a.shortestExample = some text →
      a.run text = true ∧
      (∀ other, a.run other = true → text.length ≤ other.length) ∧
      (a.deterministic = true →
        ∀ other, a.run other = true → other.length = text.length → text ≤ other) := by
  refine ⟨ha.shortestExample_eq_none_iff, fun text htext => ⟨ha.run_shortestExample htext, ?_⟩⟩
  cases hs : a.singleton with
  | none =>
    exact ⟨fun other => ha.shortestExample_length_le hs htext,
      fun hdet other => ha.shortestExample_le hs htext hdet⟩
  | some s =>
    -- the known text is the only one
    rw [shortestExample, hs] at htext
    obtain rfl := Option.some.inj htext
    have honly : ∀ other, a.run other = true → other = s := by
      intro other hother
      rw [ha.run_iff, ha.known s hs] at hother
      exact symbols_injective hother
    exact ⟨fun other hother => honly other hother ▸ Nat.le_refl _,
      fun _ other hother _ => honly other hother ▸ le_refl _⟩

/-- One surrogate is accepted, and of the longer words some that start behind the surrogates. -/
def besideSurrogates : Automaton :=
  .ofStates [⟨false, [⟨⟨98, 99⟩, 2⟩, ⟨⟨0xD800, 0xDBFF⟩, 1⟩, ⟨⟨0xDC00, 0xE001⟩, 3⟩]⟩, ⟨true, []⟩,
    ⟨false, [⟨⟨0xDFFF, 0xE005⟩, 1⟩]⟩, ⟨false, [⟨⟨97, 97⟩, 1⟩]⟩] 0

theorem shortestExample_besideSurrogates : besideSurrogates.WellFormed ∧
    besideSurrogates.deterministic = true ∧
    besideSurrogates.shortestExample = some "b\uE000" ∧
    ∀ other, besideSurrogates.run other = true → 2 ≤ other.length ∧
      (other.length = 2 → "b\uE000" ≤ other) := by
  have ha : besideSurrogates.WellFormed := wellFormed_ofStates (by decide)
  have hexample : besideSurrogates.shortestExample = some "b\uE000" := by decide +kernel
  obtain ⟨-, hshortest, hleast⟩ := ha.shortestExample_least.2 _ hexample
  exact ⟨ha, rfl, hexample, fun other hother => ⟨hshortest other hother, hleast rfl other hother⟩⟩

end Automaton

end IntervalAutomata
