import Mathlib
import Z80Asm.Program

/-! Walks over programs. What a walk does is decided by the elements outside macro definitions, and
on these it is a plain traversal with a state. -/

namespace Z80Asm.Program
set_option autoImplicit true

def isMark : Statement → Bool
  | .macroDef .. | .endMacro => true
  | _ => false

theorem inDefinition_eq (depth : Nat) (stmt : Statement) :
    inDefinition depth stmt = (isMark stmt || decide (depth > 0)) := by
  cases stmt <;> rfl

theorem of_not_inDefinition (h : ¬ inDefinition depth stmt = true) :
    depth = 0 ∧ isMark stmt = false := by
  rw [inDefinition_eq, Bool.or_eq_true, not_or, decide_eq_true_eq, Bool.not_eq_true] at h
  exact ⟨Nat.eq_zero_of_not_pos h.2, h.1⟩

theorem mem_of_mem_outsideFrom (h : e ∈ outsideFrom depth es) : e ∈ es := by
  induction es generalizing depth with
  | nil => cases h
  | cons a es ih =>
    rw [outsideFrom] at h
    split at h
    · exact List.mem_cons_of_mem a (ih h)
    · rcases List.mem_cons.1 h with he | h
      · exact he ▸ List.mem_cons_self
      · exact List.mem_cons_of_mem a (ih h)

theorem mem_of_mem_outside (h : e ∈ outside es) : e ∈ es := mem_of_mem_outsideFrom h

theorem outsideFrom_append {here : List Element} (h : ∀ e ∈ here, isMark e.stmt = false)
    (es : List Element) : outsideFrom 0 (here ++ es) = here ++ outsideFrom 0 es := by
  induction here with
  | nil => rfl
  | cons e here ih =>
    have hd : inDefinition 0 e.stmt = false := by
      rw [inDefinition_eq, h e List.mem_cons_self]
      rfl
    rw [List.cons_append, outsideFrom, hd, ih fun a ha => h a (List.mem_cons_of_mem e ha)]
    rfl

/-- A walk over elements that lie in no definition. -/
def spread (f : σ → Element → List Element × σ) (s : σ) : List Element → List Element × σ
  | [] => ([], s)
  | e :: es => ((f s e).1 ++ (spread f (f s e).2 es).1, (spread f (f s e).2 es).2)

def Unmarked (f : σ → Element → List Element × σ) : Prop :=
  ∀ s e, isMark e.stmt = false → ∀ e' ∈ (f s e).1, isMark e'.stmt = false

theorem outsideFrom_walkFrom {f : σ → Element → List Element × σ} (hf : Unmarked f) (depth : Nat)
    (s : σ) (es : List Element) :
    outsideFrom depth (walkFrom f depth s es).1 = (spread f s (outsideFrom depth es)).1 ∧
      (walkFrom f depth s es).2 = (spread f s (outsideFrom depth es)).2 := by
  induction es generalizing depth s with
  | nil => exact ⟨rfl, rfl⟩
  | cons e es ih =>
    rw [walkFrom, outsideFrom]
    by_cases hd : inDefinition depth e.stmt = true
    · simp only [hd, ↓reduceIte, outsideFrom]
      exact ih _ s
    · obtain ⟨rfl, hm⟩ := of_not_inDefinition hd
      obtain ⟨h₁, h₂⟩ := ih 0 (f s e).2
      simp only [if_neg hd, spread]
      rw [outsideFrom_append (hf s e hm), h₁, h₂]
      exact ⟨rfl, rfl⟩

theorem outside_walk {f : σ → Element → List Element × σ} (hf : Unmarked f) (s : σ)
    (es : List Element) : outside (walk f s es).1 = (spread f s (outside es)).1 :=
  (outsideFrom_walkFrom hf 0 s es).1

theorem walk_snd {f : σ → Element → List Element × σ} (hf : Unmarked f) (s : σ)
    (es : List Element) : (walk f s es).2 = (spread f s (outside es)).2 :=
  (outsideFrom_walkFrom hf 0 s es).2

/-- The elements with the statements that a function gives for them one after the other. -/
def thread (f : σ → Element → Statement × σ) (s : σ) : List Element → List Element × σ
  | [] => ([], s)
  | e :: es =>
    ({ e with stmt := (f s e).1 } :: (thread f (f s e).2 es).1, (thread f (f s e).2 es).2)

theorem spread_singleton (f : σ → Element → Statement × σ) (s : σ) (es : List Element) :
    spread (fun s e => ([{ e with stmt := (f s e).1 }], (f s e).2)) s es = thread f s es := by
  induction es generalizing s with
  | nil => rfl
  | cons e es ih =>
    rw [spread, thread, ih]
    rfl

def Inert (f : σ → Element → Statement × σ) : Prop :=
  ∀ s e, isMark e.stmt = false → isMark (f s e).1 = false

theorem Inert.unmarked (h : Inert f) :
    Unmarked fun s e => ([{ e with stmt := (f s e).1 }], (f s e).2) := by
  intro s e he e' h'
  rw [List.mem_singleton.1 h']
  exact h s e he

/-- The statements are the same, but for the symbol of a label or the contents of a template. -/
inductive Alike : Statement → Statement → Prop where
  | refl (stmt : Statement) : Alike stmt stmt
  | label (l l' : Label) : Alike (.label l) (.label l')
  | bytes (t t' : Template) : Alike (.bytes t) (.bytes t')

theorem inert_of_alike {f : σ → Element → Statement × σ} (h : ∀ s e, Alike e.stmt (f s e).1) :
    Inert f := by
  intro s e he
  have ha := h s e
  generalize e.stmt = stmt at he ha
  generalize (f s e).1 = stmt' at ha
  cases ha with
  | refl => exact he
  | label => rfl
  | bytes => rfl

theorem outside_update {f : σ → Element → Statement × σ} (hf : Inert f) (s : σ)
    (es : List Element) :
    outside (update f s es).1 = (thread f s (outside es)).1 :=
  (outside_walk hf.unmarked s es).trans (by rw [spread_singleton])

theorem update_snd {f : σ → Element → Statement × σ} (hf : Inert f) (s : σ)
    (es : List Element) :
    (update f s es).2 = (thread f s (outside es)).2 :=
  (walk_snd hf.unmarked s es).trans (by rw [spread_singleton])

theorem thread_append (f : σ → Element → Statement × σ) (s : σ) (es es' : List Element) :
    thread f s (es ++ es') =
      ((thread f s es).1 ++ (thread f (thread f s es).2 es').1,
        (thread f (thread f s es).2 es').2) := by
  induction es generalizing s with
  | nil => rfl
  | cons e es ih =>
    rw [List.cons_append, thread, thread, ih]
    rfl

theorem thread_append_eq {f : σ → Element → Statement × σ} (h : thread f s es = (out, s₁))
    (h' : thread f s₁ es' = (out', s₂)) : thread f s (es ++ es') = (out ++ out', s₂) := by
  rw [thread_append, h]
  dsimp only
  rw [h']

theorem thread_still {f : σ → Element → Statement × σ} (h : ∀ e ∈ es, f s e = (e.stmt, s)) :
    thread f s es = (es, s) := by
  induction es with
  | nil => rfl
  | cons e es ih =>
    rw [thread, h e List.mem_cons_self, ih fun a ha => h a (List.mem_cons_of_mem e ha)]

theorem thread_middle (f : σ → Element → Statement × σ) (s : σ) (pre post : List Element)
    (e : Element) :
    (thread f s (pre ++ e :: post)).1 =
      (thread f s pre).1 ++ { e with stmt := (f (thread f s pre).2 e).1 } ::
        (thread f (f (thread f s pre).2 e).2 post).1 := by
  rw [thread_append]
  rfl

theorem length_thread (f : σ → Element → Statement × σ) (s : σ) (es : List Element) :
    (thread f s es).1.length = es.length := by
  induction es generalizing s with
  | nil => rfl
  | cons e es ih => rw [thread, List.length_cons, ih, List.length_cons]

theorem mem_thread {f : σ → Element → Statement × σ} (h : e ∈ (thread f s es).1) :
    ∃ s' a, a ∈ es ∧ e = { a with stmt := (f s' a).1 } := by
  induction es generalizing s with
  | nil => cases h
  | cons a es ih =>
    rcases List.mem_cons.1 h with he | h
    · exact ⟨s, a, List.mem_cons_self, he⟩
    · obtain ⟨s', b, hb, he⟩ := ih h
      exact ⟨s', b, List.mem_cons_of_mem a hb, he⟩

theorem mem_thread_split {f : σ → Element → Statement × σ} (h : e ∈ (thread f s es).1) :
    ∃ pre a post, es = pre ++ a :: post ∧
      e = { a with stmt := (f (thread f s pre).2 a).1 } := by
  induction es generalizing s with
  | nil => cases h
  | cons a es ih =>
    rcases List.mem_cons.1 h with he | h
    · exact ⟨[], a, es, rfl, he⟩
    · obtain ⟨pre, b, post, hes, he⟩ := ih h
      exact ⟨a :: pre, b, post, by rw [hes]; rfl, he⟩

theorem getElem?_thread (f : σ → Element → Statement × σ) (s : σ) (es : List Element) (n : Nat) :
    (thread f s es).1[n]? =
      es[n]?.map fun e => { e with stmt := (f (thread f s (es.take n)).2 e).1 } := by
  induction es generalizing s n with
  | nil => rfl
  | cons e es ih =>
    cases n with
    | zero => rfl
    | succ n => exact ih _ n

theorem take_thread (f : σ → Element → Statement × σ) (s : σ) (es : List Element) (n : Nat) :
    (thread f s es).1.take n = (thread f s (es.take n)).1 := by
  induction es generalizing s n with
  | nil => rw [List.take_nil, thread, List.take_nil]
  | cons e es ih =>
    cases n with
    | zero => rfl
    | succ n => exact congrArg (_ :: ·) (ih _ n)

theorem thread_take_succ {f : σ → Element → Statement × σ} {es : List Element}
    (h : es[n]? = some e) :
    (thread f s (es.take (n + 1))).2 = (f (thread f s (es.take n)).2 e).2 := by
  rw [List.take_add_one, h, thread_append]
  rfl

/-- What every step keeps, a traversal keeps. -/
theorem thread_induction {f : σ → Element → Statement × σ} {P : σ → Prop}
    (hf : ∀ s e, P s → P (f s e).2) (h : P s) (es : List Element) : P (thread f s es).2 := by
  induction es generalizing s with
  | nil => exact h
  | cons e es ih => exact ih (hf s e h)

end Z80Asm.Program

namespace Z80Asm

def Element.template? (e : Element) : Option (Location × Template) :=
  match e.stmt with
  | .bytes t => if t.slots.isEmpty then none else some (e.loc, t)
  | _ => none

theorem Program.templates_eq (es : List Element) :
    templates es = (outside es).filterMap Element.template? := rfl

end Z80Asm
