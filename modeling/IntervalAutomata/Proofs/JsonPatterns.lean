import IntervalAutomata.Proofs.JsonDocuments

/-! # The compact codec is lawful

An object is taken for a constructor by its kind and its arguments, each found under its name and fit
for what it is asked for, so it does not matter what else there is. The outermost object is read by
readers of its own, one for its kind and one for all other members, and both read back what stands
there. -/

namespace IntervalAutomata

open Json

namespace Json

variable {α : Type}

theorem eq_of_only? {members : List (List Char × α)} {member : List Char × α} {name : String}
    {x : α} (h : only? members name = some x) (hmember : member ∈ members)
    (hname : member.1 = name.toList) : member.2 = x := by
  have hmem : member ∈ members.filter fun member => member.1 == name.toList :=
    List.mem_filter.mpr ⟨hmember, beq_iff_eq.mpr hname⟩
  rw [only?] at h
  split at h
  · rename_i heq
    rw [heq, List.mem_singleton] at hmem
    rw [hmem]
    exact Option.some.inj h
  · cases h

end Json

namespace Pattern

/-! ## The pattern that an object holds -/

variable {members : List (List Char × Document)} {name : String} {d : Document} {p : Pattern}

theorem only?_asMembers (members : List (List Char × Document)) (name : String) :
    only? (asMembers members) name = (only? members name).map asItem := by
  rw [asMembers_eq, only?_map]

theorem lacks_asMembers (members : List (List Char × Document)) (name : String) :
    lacks (asMembers members) name = lacks members name := by
  rw [asMembers_eq, lacks_map]

/-- What is asked of the only member of a name is asked of its value. -/
theorem only?_bind_asMembers {β : Type} (h : only? members name = some d) (ask : Item → Option β) :
    (only? (asMembers members) name).bind ask = ask (asItem d) := by
  rw [only?_asMembers, h]
  rfl

theorem Argument.IsIn.char? {value : Char}
    (h : (Argument.character value).IsIn Codec.compact.deserialize d) :
    (asItem d).char? = some value := by
  obtain rfl : d = .text [value] := h
  rfl

theorem Argument.IsIn.pattern? (h : (Argument.inner p).IsIn Codec.compact.deserialize d) :
    (asItem d).pattern? = some p :=
  h

theorem Argument.IsIn.bound? {n : Nat}
    (h : (Argument.bound (some n)).IsIn Codec.compact.deserialize d) :
    (asItem d).bound? = some n := by
  obtain ⟨word, rfl, rfl⟩ := h
  exact if_pos (Nat.le_of_lt_succ word.toNat_lt)

theorem Argument.IsIn.openBound? {max : Option Nat}
    (h : (Argument.bound max).IsIn Codec.compact.deserialize d) :
    (asItem d).openBound? = some max := by
  cases max with
  | none =>
    obtain rfl : d = .null := h
    rfl
  | some n =>
    have hbound := h.bound?
    obtain ⟨word, rfl, -⟩ := h
    rw [asItem, Item.openBound?, ← asItem, hbound]
    · rfl
    · intro h
      cases h

theorem ofMembers_asMembers (h : p.ArgumentsIn Codec.compact.deserialize members) :
    ofMembers p.kind (asMembers members) = some p := by
  cases p
  case anyChar | empty | emptyString => rfl
  case char value =>
    obtain ⟨⟨d, hd, hvalue⟩, -⟩ := List.forall_mem_cons.mp h
    simp [ofMembers, kind, only?_bind_asMembers hd, hvalue.char?]
  case range start stop =>
    obtain ⟨⟨d, hd, hstart⟩, h⟩ := List.forall_mem_cons.mp h
    obtain ⟨⟨e, he, hstop⟩, -⟩ := List.forall_mem_cons.mp h
    simp [ofMembers, kind, only?_bind_asMembers hd, only?_bind_asMembers he, hstart.char?, hstop.char?]
  case star inner | plus inner | complement inner =>
    obtain ⟨⟨d, hd, hinner⟩, -⟩ := List.forall_mem_cons.mp h
    simp [ofMembers, kind, only?_bind_asMembers hd, hinner.pattern?]
  case alternation left right | concatenation left right | intersection left right =>
    obtain ⟨⟨d, hd, hleft⟩, h⟩ := List.forall_mem_cons.mp h
    obtain ⟨⟨e, he, hright⟩, -⟩ := List.forall_mem_cons.mp h
    simp [ofMembers, kind, only?_bind_asMembers hd, only?_bind_asMembers he, hleft.pattern?,
      hright.pattern?]
  case repeated inner min max =>
    obtain ⟨⟨d, hd, hinner⟩, h⟩ := List.forall_mem_cons.mp h
    obtain ⟨⟨e, he, hmin⟩, h⟩ := List.forall_mem_cons.mp h
    obtain ⟨⟨f, hf, hmax⟩, -⟩ := List.forall_mem_cons.mp h
    simp [ofMembers, kind, only?_bind_asMembers hd, only?_bind_asMembers he,
      only?_bind_asMembers hf, lacks_asMembers, lacks_of_only? hf, hinner.pattern?, hmin.bound?,
      hmax.openBound?]

theorem Kind.ofName?_name (k : Kind) : Kind.ofName? k.name.toList = some k := by
  cases k <;> decide

theorem ofObject_asMembers (hkind : only? members "kind" = some (.text p.kind.name.toList))
    (h : p.ArgumentsIn Codec.compact.deserialize members) :
    ofObject (asMembers members) = some p := by
  have hitem : (asItem (.text p.kind.name.toList)).kind? = some p.kind := Kind.ofName?_name p.kind
  rw [ofObject]
  simp only [bind, only?_asMembers, hkind, Option.map_some, Option.bind_some, hitem]
  exact ofMembers_asMembers h

/-! ## The outermost object -/

theorem outermostKind_text (size : Nat) (cs : List Char) : outermostKind size ('"' :: cs) = (do
    let (found, cs) ← item size 0 ('"' :: cs)
    match found with
    | .text name => if (Kind.ofName? name).isSome then return (found, cs) else throw .mistyped
    | _ => throw .mistyped) :=
  rfl

theorem reads_outermostKind {size depth : Nat} {cs : List Char} (hsize : cs.length ≤ size)
    (hname : (Kind.ofName? cs).isSome = true) : Reads (outermostKind size) depth (.text cs) := by
  intro rest _
  have hitem := item_quoted hsize 0 rest
  rw [Document.onto]
  rw [quoted_append] at hitem ⊢
  rw [outermostKind_text, hitem]
  simp only [bind, Except.bind, hname]
  rfl

/-- The reader of a value of the outermost object. -/
def outermostValue (size : Nat) (name : List Char) : List Char → Except Fault (Item × List Char) :=
  if name == "kind".toList then outermostKind size else item size (maxOpen - 1)

theorem outermost_object (cs : List Char) {size : Nat} (hsize : cs.length + 2 = size) :
    outermost ('\x7b' :: cs) = (do
      let (found, cs) ← Json.members allowOutermost (outermostValue size) size [] cs
      match ofObject found with
      | some p => .ok (p, cs)
      | none => .error .mistyped) := by
  rw [← hsize]
  rfl

variable {kind : List Char}

theorem isSome_ofName? (hkind : only? members "kind" = some (.text kind))
    (hp : ofObject (asMembers members) = some p) : (Kind.ofName? kind).isSome = true := by
  rw [ofObject, only?_asMembers, hkind] at hp
  have hbind : (Kind.ofName? kind).bind _ = some p := hp
  obtain ⟨k, hk, -⟩ := Option.bind_eq_some_iff.mp hbind
  exact Option.isSome_of_eq_some hk

theorem reads_outermostValue {size : Nat} (hkind : only? members "kind" = some (.text kind))
    (hname : (Kind.ofName? kind).isSome = true) {member : List Char × Document}
    (hmember : member ∈ members) (hsize : member.2.width ≤ size) :
    Reads (outermostValue size member.1) (maxOpen - 1) member.2 := by
  rw [outermostValue]
  split
  · rename_i hkindName
    have htext := eq_of_only? hkind hmember (beq_iff_eq.mp hkindName)
    rw [htext] at hsize ⊢
    exact reads_outermostKind hsize hname
  · exact reads_item member.2 hsize

/-- The kind is given only once, so no name is refused. -/
theorem allowOutermost_before (hkind : only? members "kind" = some d)
    {before after : List (List Char × Document)} {member : List Char × Document}
    (hmembers : members = before ++ member :: after) :
    allowOutermost (asMembers before) member.1 = .ok () := by
  rw [allowOutermost, lacks_asMembers]
  by_cases hkindName : member.1 = "kind".toList
  · rw [lacks_before_only? hkind hmembers hkindName, Bool.not_true, Bool.and_false]
    rfl
  · rw [beq_eq_false_iff_ne.mpr hkindName, Bool.false_and]
    rfl

theorem outermost_onto (hkind : only? members "kind" = some (.text kind))
    (hp : ofObject (asMembers members) = some p) (rest : List Char) :
    outermost ((Document.object members).onto rest) =
      if (Document.object members).nesting ≤ maxOpen then .ok (p, rest) else .error .malformed := by
  obtain ⟨size, hsize⟩ : ∃ size, (Document.membersOnto true members rest).length + 2 = size :=
    ⟨_, rfl⟩
  have hwidth : Document.widthAll members < size := by
    have hle := (Document.object members).width_le_length rest
    rw [Document.width, Document.onto, List.length_cons] at hle
    omega
  have hreads : ∀ member ∈ members, Reads (outermostValue size member.1) (maxOpen - 1) member.2 :=
    fun member hmember => reads_outermostValue hkind (isSome_ofName? hkind hp) hmember
      (Nat.le_trans (Document.width_le_widthAll hmember) (Nat.le_of_lt hwidth))
  have hread : Json.members allowOutermost (outermostValue size) size []
      (Document.membersOnto true members rest) = _ :=
    members_membersOnto hreads
      (fun _ _ _ hmembers => allowOutermost_before hkind hmembers) hwidth rest
  have hnesting : (Document.object members).nesting ≤ maxOpen ↔
      Document.nestingAll members ≤ maxOpen - 1 := Nat.succ_le_succ_iff
  rw [Document.onto, outermost_object _ hsize, hread, if_congr hnesting rfl rfl]
  split
  · simp only [bind, Except.bind, List.nil_append, hp]
  · rfl

theorem parse_onto (hkind : only? members "kind" = some (.text kind))
    (hp : ofObject (asMembers members) = some p) :
    parse (String.ofList ((Document.object members).onto [])) =
      if (Document.object members).nesting ≤ maxOpen then .ok p else .error .malformed := by
  rw [parse, String.toList_ofList, outermost_onto hkind hp]
  split <;> rfl

theorem pattern?_asItem_object : (asItem (.object members)).pattern? = ofObject (asMembers members) := by
  rw [asItem]
  cases ofObject (asMembers members) <;> rfl

theorem document_eq (p : Pattern) : p.document = .object (Codec.compact.layout p) := by
  cases p
  case repeated inner min max => cases max <;> rfl
  all_goals rfl

/-- **The codec that programs use is lawful.** -/
theorem lawful_compact : Codec.compact.Lawful where
  serialize_eq := document_eq
  deserialize_eq p members hkind h := by
    rw [← ofObject_asMembers hkind h]
    exact pattern?_asItem_object
  write_total d := ⟨_, rfl⟩
  read_written members name p text hkind hp htext hnesting := by
    obtain rfl := Option.some.inj htext
    exact (parse_onto hkind (pattern?_asItem_object.symm.trans hp)).trans (if_pos hnesting)
  refuses_deep members name p text hkind hp htext hnesting := by
    obtain rfl := Option.some.inj htext
    exact ⟨_, (parse_onto hkind (pattern?_asItem_object.symm.trans hp)).trans
      (if_neg (Nat.not_le.mpr hnesting))⟩

end Pattern

end IntervalAutomata
