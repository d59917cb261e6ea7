/-
  Engram.Notice — what an operation reports while it runs, beside its result.

  `Noted` is a value with the notices raised while it was made, oldest first. Sequencing
  concatenates the notices and forgets nothing, so the value of a composite is the composite of
  the values (`value_bind`) and proofs about results need not look at notices at all.
-/

namespace Engram

inductive NoticeLevel where
  | warn
  | info
  | debug
  deriving DecidableEq, Repr

structure Notice where
  level : NoticeLevel
  text : String
  deriving DecidableEq, Repr

/-- The line that shows a notice. -/
def Notice.line (n : Notice) : String :=
  (match n.level with
    | .warn => "WARN "
    | .info => "INFO "
    | .debug => "DEBUG ") ++ n.text

structure Noted (β : Type) where
  value : β
  notices : List Notice := []

namespace Noted

instance : Monad Noted where
  pure v := { value := v }
  bind x f := { value := (f x.value).value, notices := x.notices ++ (f x.value).notices }

def warn (text : String) : Noted Unit := ⟨(), [⟨.warn, text⟩]⟩

def info (text : String) : Noted Unit := ⟨(), [⟨.info, text⟩]⟩

def debug (text : String) : Noted Unit := ⟨(), [⟨.debug, text⟩]⟩

@[simp] theorem value_pure {β : Type} (v : β) : (pure v : Noted β).value = v := rfl

@[simp] theorem value_bind {β γ : Type} (x : Noted β) (f : β → Noted γ) :
    (x >>= f).value = (f x.value).value := rfl

@[simp] theorem notices_bind {β γ : Type} (x : Noted β) (f : β → Noted γ) :
    (x >>= f).notices = x.notices ++ (f x.value).notices := rfl

instance : LawfulMonad Noted :=
  LawfulMonad.mk' Noted (fun x => by cases x; simp [Functor.map])
    (fun x f => by simp [bind, pure]) (fun x f g => by simp [bind])

end Noted

end Engram
