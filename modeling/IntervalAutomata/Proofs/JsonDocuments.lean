import IntervalAutomata.Pattern.Json
import IntervalAutomata.Proofs.JsonLexemes

/-! # Documents are read back

Reading takes one member a round, so one round is looked at for any member and one object for any list
of members. A document within `depth` open brackets is read where it is nested at most `depth` deep; one
that is nested any deeper meets the limit before anything else goes wrong. A text is never shorter than
the fuel that reading it takes. -/

namespace IntervalAutomata

namespace Json

section

variable {α β : Type} {members : List (List Char × α)}

/-! ## Members of a name -/

theorem lacks_cons (member : List Char × α) (members : List (List Char × α)) (name : String) :
    lacks (member :: members) name = (member.1 != name.toList && lacks members name) :=
  rfl

theorem lacks_iff_filter {name : String} : lacks members name = true ↔
    (members.filter fun member => member.1 == name.toList) = [] := by
  simp [lacks, List.filter_eq_nil_iff]

theorem only?_cons (n : List Char) (x : α) (members : List (List Char × α)) (name : String) :
    only? ((n, x) :: members) name =
      if n = name.toList then if lacks members name then some x else none
      else only? members name := by
  rw [only?, List.filter_cons]
  by_cases hn : n = name.toList
  · rw [if_pos (beq_iff_eq.mpr hn), if_pos hn]
    by_cases hlacks : lacks members name = true
    · rw [lacks_iff_filter.mp hlacks, if_pos hlacks]
    · rw [if_neg hlacks]
      split
      · rename_i heq
        exact absurd (lacks_iff_filter.mpr (List.cons.inj heq).2) hlacks
      · rfl
  · rw [if_neg (by simpa using hn), if_neg hn]
    rfl

theorem lacks_of_only? {name : String} {x : α} (h : only? members name = some x) :
    lacks members name = false := by
  rw [Bool.eq_false_iff, Ne, lacks_iff_filter]
  intro hnil
  rw [only?, hnil] at h
  cases h

theorem lacks_map (f : α → β) (members : List (List Char × α)) (name : String) :
    lacks (members.map fun member => (member.1, f member.2)) name = lacks members name := by
  rw [lacks, List.all_map]
  rfl

theorem only?_map (f : α → β) (members : List (List Char × α)) (name : String) :
    only? (members.map fun member => (member.1, f member.2)) name = (only? members name).map f := by
  induction members with
  | nil => rfl
  | cons member members ih =>
    rw [List.map_cons, only?_cons, ih, lacks_map, ← Prod.mk.eta (p := member), only?_cons]
    split
    · split <;> rfl
    · rfl

/-- What comes before the only member of a name lacks that name. -/
theorem lacks_before_only? {name : String} {x : α} {before after : List (List Char × α)}
    {member : List Char × α} (h : only? members name = some x)
    (hmembers : members = before ++ member :: after) (hmember : member.1 = name.toList) :
    lacks before name = true := by
  subst hmembers
  induction before with
  | nil => rfl
  | cons first before ih =>
    rw [List.cons_append, ← Prod.mk.eta (p := first), only?_cons] at h
    rw [lacks_cons]
    split at h
    · split at h
      · rename_i hlacks
        rw [lacks, List.all_append, List.all_cons, hmember] at hlacks
        simp at hlacks
      · cases h
    · rename_i hfirst
      simp [hfirst, ih h]

end

section

variable {α : Type} {allow : List (List Char × α) → List Char → Except Fault Unit}
variable {value : List Char → List Char → Except Fault (α × List Char)}
variable {found : List (List Char × α)} {name cs text rest : List Char} {fuel : Nat}

/-! ## Rounds of reading -/

/-- One round of reading an object: a quoted name, a colon and a value. -/
theorem members_entry
    (hturn : turn '\x7d' found.isEmpty cs = .ok (.entry (quoted name ++ ':' :: text)))
    (hallow : allow found name = .ok ()) (hname : name.length ≤ fuel + 1) :
    members allow value (fuel + 1) found cs = (value name text).bind fun read =>
      members allow value fuel (found ++ [(name, read.1)]) read.2 := by
  have hread : memberName (allow found) (fuel + 1) (quoted name ++ ':' :: text) =
      .ok (name, text) := by
    rw [quoted_append, memberName, string_quoted hname]
    simp [bind, Except.bind, hallow, skipBlanks, isBlank, pure, Except.pure]
  rw [members, hturn]
  simp only [bind, Except.bind, hread]

theorem members_close (hturn : turn '\x7d' found.isEmpty cs = .ok (.close rest)) :
    members allow value (fuel + 1) found cs = .ok (found, rest) := by
  rw [members, hturn]
  rfl

end

namespace Document

/-! ## Members in front of what follows -/

theorem induction_on_members {motive : Document → Prop} (null : motive .null)
    (text : ∀ cs, motive (.text cs)) (natural : ∀ n, motive (.natural n))
    (object : ∀ members, (∀ member ∈ members, motive member.2) → motive (.object members)) :
    ∀ d, motive d
  | .null => null
  | .text cs => text cs
  | .natural n => natural n
  | .object members => object members fun member _ =>
    induction_on_members null text natural object member.2
termination_by d => sizeOf d
decreasing_by
  rename_i hmember
  have hlt := List.sizeOf_lt_of_mem hmember
  have hmember : sizeOf member = 1 + sizeOf member.1 + sizeOf member.2 := by cases member; rfl
  simp only [Document.object.sizeOf_spec]
  omega

mutual

/-- Fuel that reading a document takes. -/
def width : Document → Nat
  | null | natural _ => 0
  | text cs => cs.length
  | object members => widthAll members + 1

def widthAll : List (List Char × Document) → Nat
  | [] => 0
  | (name, d) :: more => name.length + d.width + widthAll more + 1

end

theorem width_le_widthAll {members : List (List Char × Document)} {member : List Char × Document}
    (h : member ∈ members) : member.2.width ≤ widthAll members := by
  induction members with
  | nil => cases h
  | cons first more ih =>
    obtain ⟨name, d⟩ := first
    rw [widthAll]
    cases h with
    | head => dsimp only; omega
    | tail _ h => have hmore := ih h; omega

theorem length_le_flatMap_escaped (cs : List Char) : cs.length ≤ (cs.flatMap escaped).length := by
  induction cs with
  | nil => exact Nat.le_refl _
  | cons c cs ih =>
    have hescaped : 1 ≤ (escaped c).length := by
      unfold escaped
      split <;> try exact Nat.le_add_left ..
      split <;> exact Nat.le_add_left ..
    rw [List.flatMap_cons, List.length_append, List.length_cons]
    omega

theorem length_add_two_le_quoted (cs : List Char) : cs.length + 2 ≤ (quoted cs).length := by
  have hcs := length_le_flatMap_escaped cs
  simp only [quoted, List.length_append, List.length_cons, List.length_nil]
  omega

theorem widthAll_le_length {members : List (List Char × Document)}
    (h : ∀ member ∈ members, ∀ rest, member.2.width + rest.length ≤ (member.2.onto rest).length)
    (first : Bool) (rest : List Char) :
    widthAll members + rest.length ≤ (membersOnto first members rest).length := by
  induction members generalizing first with
  | nil => simp [widthAll, membersOnto]
  | cons member more ih =>
    obtain ⟨name, d⟩ := member
    obtain ⟨hd, hmore⟩ := List.forall_mem_cons.mp h
    have hname := length_add_two_le_quoted name
    have hvalue : d.width + (membersOnto false more rest).length ≤
        (d.onto (membersOnto false more rest)).length := hd _
    have hrest := ih hmore false
    simp only [widthAll, membersOnto, List.length_append, List.length_cons]
    omega

theorem width_le_length (d : Document) (rest : List Char) :
    d.width + rest.length ≤ (d.onto rest).length := by
  induction d using induction_on_members generalizing rest with
  | null => exact Nat.le_trans (by simp [width]) (Nat.le_add_right rest.length 4)
  | text cs =>
    have hcs := length_add_two_le_quoted cs
    simp only [width, onto, List.length_append]
    omega
  | natural n => simp [width, onto]
  | object members ih =>
    have hmembers := widthAll_le_length ih true rest
    simp only [width, onto, List.length_cons]
    omega

/-- What follows a value in an object cannot belong to it. -/
theorem delimited_membersOnto (members : List (List Char × Document)) (rest : List Char) :
    Delimited (membersOnto false members rest) := by
  rcases members with _ | ⟨⟨name, d⟩, more⟩ <;> intro c hc
  · exact .inr (Option.some.inj hc).symm
  · exact .inl (Option.some.inj hc).symm

theorem turn_membersOnto_nil (first : Bool) (rest : List Char) :
    turn '\x7d' first (membersOnto first [] rest) = .ok (.close rest) := by
  cases first <;> rfl

theorem turn_membersOnto_cons (first : Bool) (name : List Char) (d : Document)
    (more : List (List Char × Document)) (rest : List Char) :
    turn '\x7d' first (membersOnto first ((name, d) :: more) rest) =
      .ok (.entry (quoted name ++ ':' :: d.onto (membersOnto false more rest))) := by
  cases first <;> rfl

end Document

end Json

open Json

namespace Pattern

/-! ## Values -/

variable {size depth : Nat} {rest : List Char}

theorem item_quoted {cs : List Char} (h : cs.length ≤ size) (depth : Nat) (rest : List Char) :
    item size depth (quoted cs ++ rest) = .ok (.text cs, rest) := by
  have htext : item size depth ('"' :: (cs.flatMap escaped ++ '"' :: rest)) =
      (string size (cs.flatMap escaped ++ '"' :: rest)).bind fun read =>
        .ok (.text read.1, read.2) := by
    rw [item.eq_def]
    rfl
  rw [quoted_append, htext, string_quoted h]
  rfl

theorem item_null (size depth : Nat) (rest : List Char) :
    item size depth ('n' :: 'u' :: 'l' :: 'l' :: rest) = .ok (.null, rest) := by
  rw [item.eq_def]
  rfl

theorem item_toDigits {n : Nat} (hn : n ≤ maxBound) (hrest : Delimited rest) (size depth : Nat) :
    item size depth (Nat.toDigits 10 n ++ rest) = .ok (.natural n, rest) := by
  have hnumber := number_toDigits (Nat.lt_of_le_of_lt hn (by decide)) hrest
  obtain ⟨c, cs, hcs⟩ := List.exists_cons_of_ne_nil (Nat.toDigits_ne_nil (n := n) (b := 10))
  have hc : c.isDigit = true :=
    Nat.isDigit_of_mem_toDigits (b := 10) (n := n) (by decide) (by decide) (by rw [hcs]; simp)
  rw [hcs, List.cons_append] at hnumber ⊢
  have hne : ∀ d : Char, d.isDigit = false → c ≠ d := by
    rintro d hd rfl
    rw [hd] at hc
    cases hc
  have hskip : skipBlanks (c :: (cs ++ rest)) = c :: (cs ++ rest) := by
    rw [skipBlanks, List.dropWhile_cons_of_neg]
    simp [isBlank, hne ' ' rfl, hne '\n' rfl, hne '\t' rfl, hne '\r' rfl]
  rw [item.eq_def]
  dsimp only
  rw [hskip]
  -- a digit is none of the characters that other values start with
  split <;> rename_i heq
  case h_1 => cases heq
  case h_8 =>
    obtain ⟨rfl, rfl⟩ := List.cons.inj heq
    rw [if_pos (by simp [hc]), hnumber]
    rfl
  all_goals exact absurd (List.cons.inj heq).1 (hne _ rfl)

theorem item_object_zero (size : Nat) (cs : List Char) :
    item size 0 ('\x7b' :: cs) = .error .malformed := by
  rw [item.eq_def]
  rfl

theorem item_object (size depth : Nat) (cs : List Char) : item size (depth + 1) ('\x7b' :: cs) = (do
    let (found, cs) ← members (fun _ _ => .ok ()) (fun _ => item size depth) size [] cs
    return (itemOf (ofObject found), cs)) := by
  rw [item.eq_def]
  rfl

/-! ## Documents -/

theorem asMembers_eq (members : List (List Char × Document)) :
    asMembers members = members.map fun member => (member.1, asItem member.2) := by
  induction members with
  | nil => rfl
  | cons member more ih => rw [asMembers, ih, List.map_cons]

/-- Where `depth` more brackets may be opened, a document is read back or is too deep. -/
def Reads (read : List Char → Except Fault (Item × List Char)) (depth : Nat) (d : Document) : Prop :=
  ∀ rest, Delimited rest → read (d.onto rest) =
    if d.nesting ≤ depth then .ok (asItem d, rest) else .error .malformed

/-- **Reading an object back**, by readers that read every member's value back. -/
theorem members_membersOnto {allow : Members → List Char → Except Fault Unit}
    {value : List Char → List Char → Except Fault (Item × List Char)}
    {members : List (List Char × Document)} {fuel : Nat} {found : Members}
    (hreads : ∀ member ∈ members, Reads (value member.1) depth member.2)
    (hallow : ∀ before member after, members = before ++ member :: after →
      allow (found ++ asMembers before) member.1 = .ok ())
    (hfuel : Document.widthAll members < fuel) (rest : List Char) :
    Json.members allow value fuel found (Document.membersOnto found.isEmpty members rest) =
      if Document.nestingAll members ≤ depth then .ok (found ++ asMembers members, rest)
      else .error .malformed := by
  obtain ⟨fuel, rfl⟩ : ∃ k, fuel = k + 1 := Nat.exists_eq_succ_of_ne_zero (by omega)
  induction members generalizing fuel found with
  | nil =>
    rw [members_close (Document.turn_membersOnto_nil _ rest), Document.nestingAll,
      if_pos (Nat.zero_le _), asMembers, List.append_nil]
  | cons member more ih =>
    obtain ⟨name, d⟩ := member
    obtain ⟨hd, hmore⟩ := List.forall_mem_cons.mp hreads
    rw [Document.widthAll] at hfuel
    have hallowed : allow found name = .ok () := by
      simpa [asMembers] using hallow [] (name, d) more rfl
    have hlater : ∀ before member after, more = before ++ member :: after →
        allow (found ++ [(name, asItem d)] ++ asMembers before) member.1 = .ok () := by
      intro before member after heq
      simpa [asMembers] using hallow ((name, d) :: before) member after (by rw [heq]; rfl)
    have hmax : Document.nestingAll ((name, d) :: more) ≤ depth ↔
        d.nesting ≤ depth ∧ Document.nestingAll more ≤ depth := Nat.max_le
    rw [members_entry (Document.turn_membersOnto_cons _ name d more rest) hallowed (by omega),
      hd _ (Document.delimited_membersOnto more rest), if_congr hmax rfl rfl]
    by_cases hnested : d.nesting ≤ depth
    · obtain ⟨fuel, rfl⟩ : ∃ k, fuel = k + 1 := Nat.exists_eq_succ_of_ne_zero (by omega)
      have hread := ih hmore hlater fuel (by omega)
      rw [show (found ++ [(name, asItem d)]).isEmpty = false by simp] at hread
      rw [if_pos hnested, Except.bind, hread, if_congr (and_iff_right hnested) rfl rfl, asMembers,
        List.append_assoc, List.singleton_append]
    · rw [if_neg hnested, if_neg fun h => hnested h.1]
      rfl

/-- **Reading a document back**, inside another one. -/
theorem reads_item (d : Document) (hsize : d.width ≤ size) : Reads (item size depth) depth d := by
  induction d using Document.induction_on_members generalizing depth with
  | null => exact fun rest _ => item_null size depth rest
  | text cs => exact fun rest _ => item_quoted hsize depth rest
  | natural n => exact fun rest hrest => item_toDigits (Nat.le_of_lt_succ n.toNat_lt) hrest size depth
  | object members ih =>
    intro rest _
    cases depth with
    | zero => exact item_object_zero size _
    | succ depth =>
      have hreads : ∀ member ∈ members, Reads (item size depth) depth member.2 :=
        fun member hmember => ih member hmember
          (Nat.le_trans (Document.width_le_widthAll hmember) (Nat.le_of_succ_le hsize))
      have hread : Json.members (fun _ _ => .ok ()) (fun _ => item size depth) size []
          (Document.membersOnto true members rest) = _ :=
        members_membersOnto hreads (fun _ _ _ _ => rfl) hsize rest
      rw [Document.onto, item_object, hread, Document.nesting,
        if_congr Nat.succ_le_succ_iff rfl rfl]
      split <;> rfl

end Pattern

end IntervalAutomata
