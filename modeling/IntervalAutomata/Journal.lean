/-!
Values that carry the events on the way to them, in order. The value of a composite never depends on
the events of its parts, so forgetting the events gives the plain function.
-/

namespace IntervalAutomata

structure Journal (ε α : Type) where
  value : α
  events : List ε

namespace Journal

variable {ε α β : Type}

instance : Monad (Journal ε) where
  pure value := ⟨value, []⟩
  bind j f :=
    let next := f j.value
    ⟨next.value, j.events ++ next.events⟩

def note (e : ε) : Journal ε Unit := ⟨(), [e]⟩

@[simp] theorem value_pure (x : α) : (pure x : Journal ε α).value = x := rfl

@[simp] theorem events_pure (x : α) : (pure x : Journal ε α).events = [] := rfl

@[simp] theorem value_bind (j : Journal ε α) (f : α → Journal ε β) :
    (j >>= f).value = (f j.value).value := rfl

@[simp] theorem events_bind (j : Journal ε α) (f : α → Journal ε β) :
    (j >>= f).events = j.events ++ (f j.value).events := rfl

@[simp] theorem value_note (e : ε) : (note e).value = () := rfl

@[simp] theorem events_note (e : ε) : (note e).events = [e] := rfl

end Journal

end IntervalAutomata
