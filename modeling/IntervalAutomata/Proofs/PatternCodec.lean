import IntervalAutomata.Proofs.JsonPatterns

/-! # Patterns survive JSON

Every pattern is laid out the same way: its kind and its arguments, which are characters, bounds and
further patterns, under names of their own. So whatever codec lays it out finds it again, by induction
over the patterns inside, and opens exactly one object for each level of it. What is left for the text
is whether that is as many as may be open at once. -/

namespace IntervalAutomata

open Json

namespace Json

variable {α : Type}

theorem only?_of_mem {members : List (List Char × α)} (hnodup : (members.map (·.1)).Nodup)
    {member : List Char × α} {name : String} (hmember : member ∈ members)
    (hname : member.1 = name.toList) : only? members name = some member.2 := by
  induction members with
  | nil => cases hmember
  | cons first more ih =>
    obtain ⟨hfirst, hmore⟩ := List.nodup_cons.mp hnodup
    rw [← Prod.mk.eta (p := first), only?_cons]
    cases hmember with
    | head =>
      have hlacks : lacks more name = true := List.all_eq_true.mpr fun other hother =>
        bne_iff_ne.mpr fun heq => hfirst (List.mem_map.mpr ⟨other, hother, heq.trans hname.symm⟩)
      rw [if_pos hname, if_pos hlacks]
    | tail _ hmember =>
      have hne : first.1 ≠ name.toList := fun heq =>
        hfirst (List.mem_map.mpr ⟨member, hmember, hname.trans heq.symm⟩)
      rw [if_neg hne, ih hmore hmember]

theorem nestingAll_le_iff {members : List (List Char × Document)} {depth : Nat} :
    Document.nestingAll members ≤ depth ↔ ∀ member ∈ members, member.2.nesting ≤ depth := by
  induction members with
  | nil => simp [Document.nestingAll]
  | cons member more ih =>
    rw [List.forall_mem_cons, ← ih]
    exact Nat.max_le

end Json

namespace Pattern

variable {p : Pattern} {c : Codec}

/-! ## Arguments -/

theorem depth_pos (p : Pattern) : 0 < p.depth := by
  cases p <;> simp [depth]

theorem induction_on_arguments {motive : Pattern → Prop}
    (h : ∀ p : Pattern, (∀ name q, (name, .inner q) ∈ p.arguments → motive q) → motive p)
    (p : Pattern) : motive p := by
  induction p <;> exact h _ (by grind [arguments])

namespace Argument

def depth : Argument → Nat
  | inner p => p.depth
  | character _ | bound _ => 0

def BoundsFit : Argument → Prop
  | character _ => True
  | inner p => p.BoundsFit
  | bound value => ∀ n ∈ value, n ≤ maxBound

end Argument

theorem depth_le_succ_iff {d : Nat} : p.depth ≤ d + 1 ↔ ∀ a ∈ p.arguments, a.2.depth ≤ d := by
  cases p <;> simp [depth, arguments, Argument.depth]

theorem boundsFit_iff : p.BoundsFit ↔ ∀ a ∈ p.arguments, a.2.BoundsFit := by
  cases p <;> simp [BoundsFit, arguments, Argument.BoundsFit]

/-- No two arguments have the same name, and none has the name of the kind. -/
theorem nodup_names (p : Pattern) : ("kind" :: p.arguments.map (·.1)).Nodup := by
  cases p <;> simp [arguments]

namespace Codec

/-! ## Documents of patterns -/

theorem nodup_layout (c : Codec) (p : Pattern) : ((c.layout p).map (·.1)).Nodup := by
  have hnames : (c.layout p).map (·.1) = ("kind" :: p.arguments.map (·.1)).map String.toList := by
    simp [layout]
  rw [hnames]
  exact List.Pairwise.map String.toList (fun _ _ hne heq => hne (String.toList_inj.mp heq))
    p.nodup_names

theorem only?_kind (c : Codec) (p : Pattern) :
    only? (c.layout p) "kind" = some (.text p.kind.name.toList) :=
  only?_of_mem (c.nodup_layout p) List.mem_cons_self rfl

theorem only?_argument (c : Codec) {p : Pattern} {a : String × Argument} (ha : a ∈ p.arguments) :
    only? (c.layout p) a.1 = some (a.2.serialized c.serialize) :=
  only?_of_mem (c.nodup_layout p) (List.mem_cons_of_mem _ (List.mem_map.mpr ⟨a, ha, rfl⟩)) rfl

/-- **A pattern is found in its document.** -/
theorem Lawful.deserialize_serialize (hc : c.Lawful) (hp : p.BoundsFit) :
    c.deserialize (c.serialize p) = some p := by
  induction p using induction_on_arguments with
  | h p ih =>
    rw [hc.serialize_eq]
    refine hc.deserialize_eq p (c.layout p) (c.only?_kind p) fun a ha => ?_
    refine ⟨a.2.serialized c.serialize, c.only?_argument ha, ?_⟩
    obtain ⟨name, argument⟩ := a
    have hfits := boundsFit_iff.mp hp _ ha
    cases argument with
    | character value => rfl
    | inner q => exact ih name q ha hfits
    | bound value =>
      cases value with
      | none => rfl
      | some n =>
        exact ⟨UInt32.ofNat n, rfl, UInt32.toNat_ofNat_of_lt (Nat.lt_succ_of_le (hfits n rfl))⟩

/-- **An object is opened for each level of a pattern.** -/
theorem Lawful.nesting_serialize_le_iff (hc : c.Lawful) (p : Pattern) (d : Nat) :
    (c.serialize p).nesting ≤ d ↔ p.depth ≤ d := by
  induction p using induction_on_arguments generalizing d with
  | h p ih =>
    rw [hc.serialize_eq, Codec.layout, Document.nesting]
    cases d with
    | zero => exact iff_of_false (Nat.not_succ_le_zero _) (Nat.not_le.mpr p.depth_pos)
    | succ d =>
      rw [Nat.succ_le_succ_iff, nestingAll_le_iff, depth_le_succ_iff, List.forall_mem_cons,
        List.forall_mem_map]
      refine (and_iff_right (Nat.zero_le d)).trans (forall₂_congr fun a ha => ?_)
      obtain ⟨name, argument⟩ := a
      cases argument with
      | character value => exact Iff.rfl
      | inner q => exact ih name q ha d
      | bound value => cases value <;> exact Iff.rfl

end Codec

/-! ## Texts of patterns -/

/-- **Patterns survive JSON** as far as objects may be nested. Whatever its characters are and whether
or not its repetitions are open, a pattern is written and read back, and one that is nested any deeper
is refused and never read as another one. -/
theorem BoundsFit.ofJson_toJson (hp : p.BoundsFit) (hc : c.Lawful) :
    ∃ text, toJson c p = some text ∧ (p.depth ≤ 127 → ofJson c text = .ok p) ∧
      (127 < p.depth → ∃ fault, ofJson c text = .error fault) := by
  obtain ⟨text, htext⟩ := hc.write_total (c.serialize p)
  have hpattern := hc.deserialize_serialize hp
  have hnesting := hc.nesting_serialize_le_iff p maxOpen
  have hkind := c.only?_kind p
  refine ⟨text, htext, ?_⟩
  rw [hc.serialize_eq] at htext hpattern hnesting
  constructor
  · intro hdepth
    exact hc.read_written _ _ p text hkind hpattern htext (hnesting.mpr hdepth)
  · intro hdepth
    exact hc.refuses_deep _ _ p text hkind hpattern htext
      (Nat.not_le.mp fun hle => Nat.not_le.mpr hdepth (hnesting.mp hle))

/-- Characters of every sort that is escaped, one beyond 16 bits, and bounds of both sorts. -/
def assorted : Pattern :=
  intersection
    (alternation (concatenation (char '"') (range '\\' '\n'))
      (concatenation (char '\x00') (char '\x1f')))
    (complement (concatenation (repeated (char '𝄞') 0xFFFFFFFF none)
      (repeated (plus anyChar) 7 (some 0))))

/-- Stars one inside the other. -/
def stars : Nat → Pattern
  | 0 => emptyString
  | n + 1 => star (stars n)

theorem depth_stars (n : Nat) : (stars n).depth = n + 1 := by
  induction n with
  | zero => rfl
  | succ n ih => rw [stars, depth, ih]

theorem boundsFit_stars (n : Nat) : (stars n).BoundsFit := by
  induction n with
  | zero => trivial
  | succ n ih => exact ih

/-- The limit lies between 126 and 127 stars around a leaf. -/
theorem ofJson_toJson_assorted : Codec.compact.Lawful ∧ assorted.BoundsFit ∧
    (∃ text, toJson .compact assorted = some text ∧ ofJson .compact text = .ok assorted) ∧
    (∃ text, toJson .compact (stars 126) = some text ∧ ofJson .compact text = .ok (stars 126)) ∧
    ∃ text, toJson .compact (stars 127) = some text ∧
      ∃ fault, ofJson .compact text = .error fault := by
  have hassorted : assorted.BoundsFit := by simp [assorted, BoundsFit, maxBound]
  refine ⟨lawful_compact, hassorted, ?_, ?_, ?_⟩
  · obtain ⟨text, htext, hread, -⟩ := hassorted.ofJson_toJson lawful_compact
    exact ⟨text, htext, hread (by decide)⟩
  · obtain ⟨text, htext, hread, -⟩ := (boundsFit_stars 126).ofJson_toJson lawful_compact
    exact ⟨text, htext, hread (by rw [depth_stars])⟩
  · obtain ⟨text, htext, -, hrefused⟩ := (boundsFit_stars 127).ofJson_toJson lawful_compact
    exact ⟨text, htext, hrefused (by rw [depth_stars]; decide)⟩

end Pattern

end IntervalAutomata
