import Z80Asm.Proofs.Inlining
import Z80Asm.Proofs.Recasting

/-! Declarations of a call and of the block that it stands for. They are the same, but that the
parameters have their arguments in one case and no values yet in the other. -/

namespace Z80Asm
set_option autoImplicit true

/-- The labels and values that give parameters their arguments, declared in a scope. -/
def Macro.declaredBindings (scope : String) (loc : Location) (params : List String)
    (args : List Value) : List Element :=
  (params.zip args).flatMap fun p =>
    [⟨loc, .label { name := p.1, symbol := scope ++ p.1 }⟩, ⟨loc, .equ p.2⟩]

namespace Declarations
namespace State

section
variable {k : Nat} {ks : List Nat} {qs : List String} {s : State} {base : List Frame}
  {opened opened' : List Bool} {es : List Element}

theorem mem_names_inside (h : Indexed k s) (hin : Inside k base opened.length s)
    (hbase : base.map Frame.index = k :: ks) (hk : k < s.next)
    (hb : Program.brackets opened es = some opened') (hnames : ∀ e ∈ es, e.PlainNames)
    (hx : Scope.Unsegmented x)
    (hq : Scope.path (k :: ks) ++ x ∈ (Program.thread State.step s es).2.table.names) :
    Scope.path (k :: ks) ++ x ∈ s.table.names ∨ x ∈ Program.topLabelsFrom opened es := by
  induction es generalizing s opened with
  | nil => exact .inl hq
  | cons e es ih =>
    obtain ⟨mid, hmid, hrest⟩ := Option.bind_eq_some_iff.1 hb
    have he := hnames e List.mem_cons_self
    have hstep := h.step he fun hlt => (Nat.not_lt_of_lt hk hlt).elim
    have hnext := Nat.lt_of_lt_of_le hk (s.next_le_step e)
    rw [Program.topLabelsFrom, hmid, Option.getD_some, List.mem_append]
    rcases ih hstep (hin.step hk hmid) hnext hrest
      (fun a ha => hnames a (List.mem_cons_of_mem e ha)) hq with hq' | hx'
    · rcases (s.mem_names_step e).1 hq' with hq' | hq'
      · exact .inl hq'
      · -- Only where nothing is open within the scope is it that of the element.
        obtain ⟨hindices, l, hl, hpublic, rfl⟩ := declares_path h.framed hk he hx hq'
        obtain ⟨inner, hstack, hlen, -⟩ := hin
        have hinner : inner.map Frame.index = [] := by
          rw [indices, hstack, List.map_append, hbase] at hindices
          exact List.append_left_eq_self.1 hindices
        rw [List.map_eq_nil_iff.1 hinner] at hlen
        refine .inr (.inl ?_)
        rw [hl]
        dsimp only
        rw [if_pos ⟨List.length_eq_zero_iff.1 hlen.symm, hpublic⟩]
        exact List.mem_singleton_self _
    · exact .inr (.inr hx')

theorem mem_names_closed (h : Indexed k s) (hc : Closed k s) (hk : k < s.next)
    (hnames : ∀ e ∈ es, e.PlainNames) (hx : Scope.Unsegmented x)
    (hq : Scope.path (k :: ks) ++ x ∈ (Program.thread State.step s es).2.table.names) :
    Scope.path (k :: ks) ++ x ∈ s.table.names := by
  induction es generalizing s with
  | nil => exact hq
  | cons e es ih =>
    have he := hnames e List.mem_cons_self
    have hstep := h.step he fun hlt => (Nat.not_lt_of_lt hk hlt).elim
    have hnext := Nat.lt_of_lt_of_le hk (s.next_le_step e)
    have hq' := ih hstep (hc.step hk e) hnext (fun a ha => hnames a (List.mem_cons_of_mem e ha)) hq
    refine ((s.mem_names_step e).1 hq').resolve_right fun hd => ?_
    obtain ⟨hindices, -⟩ := declares_path h.framed hk he hx hd
    obtain ⟨f, hf, hfk⟩ := List.mem_map.1 (hindices ▸ List.mem_cons_self : k ∈ s.indices)
    exact hc f hf hfk

end

section
variable {k : Nat} {qs : List String} {s : State} {scope : String} {params : List String}
  {args : List Value}

theorem fresh_declare (hfresh : ∀ p' ∈ p :: params, scope ++ p' ∉ s.table.names)
    (hnodup : (p :: params).Nodup) (v : Value) (loc : Location) (taken : Problem) :
    ∀ p' ∈ params, scope ++ p' ∉ (s.declare (scope ++ p) v loc taken).table.names := by
  intro p' hp' hq
  rcases (s.mem_names_declare _ _ _ _).1 hq with hq | hq
  · exact hfresh p' (List.mem_cons_of_mem p hp') hq
  · rw [(String.append_right_inj scope).1 hq] at hp'
    exact (List.nodup_cons.1 hnodup).1 hp'

theorem get?_bind (hfresh : ∀ p ∈ params, scope ++ p ∉ s.table.names) (hnodup : params.Nodup)
    (c : MacroCall) (caller : String) (loc : Location) (hp : (p, a) ∈ params.zip args) :
    (s.bind c caller scope loc params args).table.get? (scope ++ p) =
      some (a.withScope caller) := by
  induction params generalizing s args with
  | nil => cases hp
  | cons p' params ih =>
    cases args with
    | nil => cases hp
    | cons a' args =>
      unfold State.bind
      dsimp only
      rcases List.mem_cons.1 hp with heq | hp
      · cases heq
        apply (bind_progress _ _ _ _ _ _ _).keeps
        obtain ⟨t, hd, -, hget⟩ := declare_of_not_mem (hfresh p List.mem_cons_self)
          (a.withScope caller) loc (.duplicateParameter p c.name)
        rw [hd]
        exact (hget _).trans (if_pos rfl)
      · exact ih (fresh_declare hfresh hnodup _ _ _) (List.nodup_cons.1 hnodup).2 hp

theorem thread_bindings (hscope : s.scope = scope) (hlen : args.length = params.length)
    (hqs : ∀ p ∈ params, scope ++ p ∈ qs) (hfresh : ∀ p ∈ params, scope ++ p ∉ s.table.names)
    (hnodup : params.Nodup) (c : MacroCall) (caller : String) (loc : Location) :
    Program.thread State.step (s.recast k qs) (Macro.bindings loc params args) =
      (Macro.declaredBindings scope loc params args,
        (s.bind c caller scope loc params args).recast k qs) := by
  induction params generalizing s args with
  | nil => rfl
  | cons p params ih =>
    cases args with
    | nil => cases hlen
    | cons a args =>
      have hp := hfresh p List.mem_cons_self
      have hlabel : (s.recast k qs).step ⟨loc, .label { name := p }⟩ =
          (.label { name := p, symbol := scope ++ p },
            (s.declare (scope ++ p) (a.withScope caller) loc
              (.duplicateParameter p c.name)).recast k qs) := by
        unfold step declareLabel
        dsimp only
        rw [scope_recast, hscope]
        simp only [Bool.false_eq_true, ↓reduceIte]
        rw [declare_recast_of_mem (hqs p List.mem_cons_self) hp (a.withScope caller) loc
          (.duplicateParameter p c.name)]
      have hscope' : (s.declare (scope ++ p) (a.withScope caller) loc
          (.duplicateParameter p c.name)).scope = scope := by
        rw [State.scope, (declare_frame _ _ _ _ _).2]
        exact hscope
      have hrest := ih hscope' (Nat.succ.inj hlen)
        (fun p' hp' => hqs p' (List.mem_cons_of_mem p hp')) (fresh_declare hfresh hnodup _ _ _)
        (List.nodup_cons.1 hnodup).2
      change Program.thread State.step (s.recast k qs)
        (⟨loc, .label { name := p }⟩ :: ⟨loc, .equ a⟩ :: Macro.bindings loc params args) = _
      rw [Program.thread, hlabel, Program.thread]
      change (_ :: ⟨loc, .equ a⟩ :: (Program.thread State.step (recast k qs _) _).1,
        (Program.thread State.step (recast k qs _) _).2) = _
      rw [hrest]
      rfl

end
theorem finish_diagnostics (s : State) :
    s.finish.diagnostics = s.diagnostics ++ s.stack.map fun f =>
      ⟨if f.isCall then .unclosedCall else .unclosedBlock, f.loc⟩ := by
  unfold finish
  generalize s.stack = frames
  induction frames generalizing s with
  | nil => exact (List.append_nil _).symm
  | cons f frames ih =>
    rw [List.foldl_cons, ih, List.map_cons, List.append_cons]
    rfl

theorem finish_recast {s : State} (h : Closed k s) (qs : List String) :
    (s.recast k qs).finish.diagnostics = s.finish.diagnostics := by
  rw [finish_diagnostics, finish_diagnostics]
  unfold recast
  dsimp only
  rw [stack_recast h]

section
variable {s : State} {c : MacroCall} {qs : List String} {body es : List Element}

theorem step_call (s : State) (hc : c.expanded = true) (loc : Location) :
    s.step ⟨loc, .call c⟩ =
      (.call { c with scope := Scope.path (s.next :: s.indices) }, (s.enterCall c loc).2) := by
  unfold step
  dsimp only
  rw [if_pos hc, ← s.enter_fst true loc]
  rfl

theorem step_block (s : State) (loc : Location) :
    s.step ⟨loc, .block ""⟩ =
      (.block (Scope.path (s.next :: s.indices)), (s.enter false loc).2) := by
  rw [← s.enter_fst false loc]
  rfl

/-- A block opens what a call opens, but that it is another kind of scope. -/
theorem enter_false (hs : Closed s.next s) (hqs : ∀ q ∈ qs, q ∉ s.table.names) (loc : Location) :
    (s.enter false loc).2 = (s.enter true loc).2.recast s.next qs := by
  unfold enter recast
  dsimp only
  rw [List.map_cons, stack_recast hs, SymbolTable.blank_of_not_mem hqs, Frame.asBlock, if_pos rfl]

theorem step_endCall {f : Frame} (hstack : s.stack = f :: fs) (hf : f.isCall = true) (name : String)
    (loc : Location) :
    s.step ⟨loc, .endCall name ""⟩ = (.endCall name f.scope, { s with stack := fs }) := by
  unfold step leave
  simp only [hstack, hf, ↓reduceIte]

theorem step_endBlock {f : Frame} (hstack : s.stack = f :: fs) (hf : f.index = k) (loc : Location) :
    (s.recast k qs).step ⟨loc, .endBlock ""⟩ =
      (.endBlock f.scope, ({ s with stack := fs } : State).recast k qs) := by
  have hstack' : (s.recast k qs).stack =
      { f with isCall := false } :: fs.map (Frame.asBlock k) := by
    unfold recast
    dsimp only
    rw [hstack, List.map_cons, Frame.asBlock, if_pos hf]
  unfold step leave
  simp only [hstack', ↓reduceIte]
  rfl

theorem enterCall_eq (s : State) (hlen : c.args.length = c.params.length) (loc : Location) :
    (s.enterCall c loc).2 = (s.enter true loc).2.bind c s.scope
      (Scope.path (s.next :: s.indices)) loc c.params c.args := by
  rw [enterCall_snd, ← s.enter_fst true loc]
  exact if_neg (Nat.not_lt_of_le (Nat.le_of_eq hlen))

theorem Indexed.fresh {s : State} (h : Indexed k s) (hp : Scope.Unsegmented p) :
    Scope.path (s.next :: s.indices) ++ p ∉ s.table.names :=
  fun hq => Scope.not_within hp List.mem_cons_self (Nat.le_refl _) (h.names _ hq)

theorem Indexed.closed {s : State} (h : Indexed k s) : Closed s.next s :=
  fun _ hf => Nat.ne_of_lt (h.below _ (List.mem_map_of_mem hf))

theorem thread_block {s : State} (h : Indexed k s) (hparams : ∀ p ∈ c.params, Scope.Unsegmented p)
    (hlen : c.args.length = c.params.length) (hnodup : c.params.Nodup) (loc : Location) :
    let inner := Scope.path (s.next :: s.indices)
    Program.thread State.step s ([⟨loc, .block ""⟩] ++ Macro.bindings loc c.params c.args) =
      ([⟨loc, .block inner⟩] ++ Macro.declaredBindings inner loc c.params c.args,
        (s.enterCall c loc).2.recast s.next (c.params.map (inner ++ ·))) := by
  intro inner
  have hfresh : ∀ p ∈ c.params, inner ++ p ∉ s.table.names := fun p hp => h.fresh (hparams p hp)
  have hqs : ∀ q ∈ c.params.map (inner ++ ·), q ∉ s.table.names := by
    intro q hq
    obtain ⟨p, hp, rfl⟩ := List.mem_map.1 hq
    exact hfresh p hp
  have hblock : Program.thread State.step s [⟨loc, .block ""⟩] =
      ([⟨loc, .block inner⟩],
        (s.enter true loc).2.recast s.next (c.params.map (inner ++ ·))) := by
    rw [Program.thread, step_block, enter_false h.closed hqs]
    rfl
  have hlabels := thread_bindings (k := s.next) (s := (s.enter true loc).2)
    (s.enter_fst true loc) hlen (fun p hp => List.mem_map_of_mem hp) hfresh hnodup c s.scope loc
  rw [enterCall_eq s hlen]
  exact Program.thread_append_eq hblock hlabels

theorem thread_body {s : State} {f : Frame} (hstack : s.stack = f :: fs) (hcall : f.isCall = true)
    (hfs : ∀ g ∈ fs, g.index ≠ f.index) (hnext : f.index < s.next)
    (hqs : ∀ q ∈ qs, q ∈ s.table.names) (hbody : Program.WellBracketed body) (name : String)
    (loc : Location) :
    ∃ body' s',
      Program.thread State.step s (body ++ [⟨loc, .endCall name ""⟩]) =
        (body' ++ [⟨loc, .endCall name f.scope⟩], s') ∧
      Program.thread State.step (s.recast f.index qs) (body ++ [⟨loc, .endBlock ""⟩]) =
        (body' ++ [⟨loc, .endBlock f.scope⟩], s'.recast f.index qs) ∧
      Closed f.index s' ∧ s'.table = (Program.thread State.step s body).2.table := by
  have hinside : Inside f.index (f :: fs) ([] : List Bool).length s :=
    ⟨[], hstack, rfl, fun g hg => nomatch hg⟩
  obtain ⟨hthread, inner, hstack', hlen, -⟩ := thread_recast_inside hinside hnext hqs hbody
  rw [List.length_eq_zero_iff.1 hlen, List.nil_append] at hstack'
  refine ⟨(Program.thread State.step s body).1,
    { (Program.thread State.step s body).2 with stack := fs }, ?_, ?_, hfs, rfl⟩
  · refine Program.thread_append_eq rfl ?_
    rw [Program.thread, step_endCall hstack' hcall]
    rfl
  · refine Program.thread_append_eq hthread ?_
    rw [Program.thread, step_endBlock hstack' rfl]
    rfl

/-- What is known behind a call of index `k`, where `ks` are the indices around it: its scope is
closed, its parameters hold their arguments, and no other names are in its scope than those of
parameters and labels in its body. -/
structure Passed (k : Nat) (ks : List Nat) (body : List Element) (c : MacroCall) (s : State) :
    Prop where
  closed : Closed k s
  next : k < s.next
  indexed : Indexed k s
  declared : ∀ p ∈ c.params, Scope.path (k :: ks) ++ p ∈ s.table.names
  arguments : ∀ p a, (p, a) ∈ c.params.zip c.args →
    s.table.get? (Scope.path (k :: ks) ++ p) = some (a.withScope (Scope.path ks))
  names : ∀ x, Scope.Unsegmented x → Scope.path (k :: ks) ++ x ∈ s.table.names →
    x ∈ c.params ∨ x ∈ Program.topLabels body

theorem Passed.thread (h : Passed k ks body c s) (hnames : ∀ e ∈ es, e.PlainNames) :
    Passed k ks body c (Program.thread State.step s es).2 where
  closed := h.closed.thread h.next es
  next := Nat.lt_of_lt_of_le h.next (s.next_le_thread es)
  indexed := h.indexed.thread hnames fun hlt => (Nat.not_lt_of_lt h.next hlt).elim
  declared p hp := mem_names_thread (h.declared p hp) es
  arguments p a hp := (thread_progress s es).keeps _ _ (h.arguments p a hp)
  names x hx hq := h.names x hx (mem_names_closed h.indexed h.closed h.next hnames hx hq)

theorem next_lt_enterCall (s : State) (c : MacroCall) (loc : Location) :
    s.next < (s.enterCall c loc).2.next := by
  rw [next_enterCall]
  exact Nat.lt_succ_self _

theorem stack_enterCall_eq (s : State) (c : MacroCall) (loc : Location) :
    (s.enterCall c loc).2.stack =
      ⟨s.next, Scope.path (s.next :: s.indices), true, loc⟩ :: s.stack := by
  rw [stack_enterCall]
  exact congrArg (fun scope => (⟨s.next, scope, true, loc⟩ : Frame) :: s.stack)
    (s.enter_fst true loc)

theorem mem_names_enterCall (hlen : c.args.length = c.params.length) (loc : Location) (q : String) :
    q ∈ (s.enterCall c loc).2.table.names ↔
      q ∈ s.table.names ∨ q ∈ c.params.map (Scope.path (s.next :: s.indices) ++ ·) := by
  rw [enterCall_eq s hlen, mem_names_bind]
  rfl

theorem mem_names_body (h : Indexed s.next s) (hparams : ∀ p ∈ c.params, Scope.Unsegmented p)
    (hlen : c.args.length = c.params.length) (hbody : Program.WellBracketed body)
    (hnames : ∀ e ∈ body, e.PlainNames) (loc : Location) (hx : Scope.Unsegmented x)
    (hq : Scope.path (s.next :: s.indices) ++ x ∈
      (Program.thread State.step (s.enterCall c loc).2 body).2.table.names) :
    x ∈ c.params ∨ x ∈ Program.topLabels body := by
  have h₁ := h.enterCall c loc hparams fun hlt => (Nat.lt_irrefl _ hlt).elim
  have hinside : Inside s.next (s.enterCall c loc).2.stack ([] : List Bool).length
      (s.enterCall c loc).2 := ⟨[], rfl, rfl, fun g hg => (List.not_mem_nil hg).elim⟩
  have hbase : (s.enterCall c loc).2.stack.map Frame.index = s.next :: s.indices := by
    rw [stack_enterCall_eq]
    rfl
  refine (mem_names_inside h₁ hinside hbase (next_lt_enterCall s c loc) hbody hnames hx hq).imp_left
    fun hq => ?_
  rcases (mem_names_enterCall hlen loc _).1 hq with hq | hq
  · exact (h.fresh hx hq).elim
  · obtain ⟨p, hp, heq⟩ := List.mem_map.1 hq
    rwa [← (String.append_right_inj _).1 heq]

theorem passed_body {s s' : State} (h : Indexed s.next s)
    (hparams : ∀ p ∈ c.params, Scope.Unsegmented p) (hlen : c.args.length = c.params.length)
    (hnodup : c.params.Nodup) (hbody : Program.WellBracketed body)
    (hnames : ∀ e ∈ body, e.PlainNames) (name : String) (loc : Location)
    (hrun : (Program.thread State.step (s.enterCall c loc).2
      (body ++ [⟨loc, .endCall name ""⟩])).2 = s') (hclosed : Closed s.next s')
    (htable : s'.table = (Program.thread State.step (s.enterCall c loc).2 body).2.table) :
    Passed s.next s.indices body c s' := by
  have hnext := next_lt_enterCall s c loc
  refine ⟨hclosed, ?_, ?_, fun p hp => ?_, fun p a hp => ?_, fun x hx hq => ?_⟩
  · rw [← hrun]
    exact Nat.lt_of_lt_of_le hnext (next_le_thread _ _)
  · rw [← hrun]
    have h₁ := h.enterCall c loc hparams fun hlt => (Nat.lt_irrefl _ hlt).elim
    refine h₁.thread (fun e he => ?_) fun hlt => (Nat.not_lt_of_lt hnext hlt).elim
    rcases List.mem_append.1 he with he | he
    · exact hnames e he
    · rw [List.mem_singleton.1 he]
      intro name hname
      cases hname
  · rw [← hrun]
    exact mem_names_thread
      ((mem_names_enterCall hlen loc _).2 (.inr (List.mem_map_of_mem hp))) _
  · rw [← hrun]
    apply (thread_progress _ _).keeps
    rw [enterCall_eq s hlen, ← scope_eq h.framed]
    exact get?_bind (s := (s.enter true loc).2) (fun p hp => h.fresh (hparams p hp)) hnodup c
      s.scope loc hp
  · rw [htable] at hq
    exact mem_names_body h hparams hlen hbody hnames loc hx hq

/-- A call and the block that it stands for declare the same. -/
theorem thread_call (h : Indexed s.next s) (hc : c.expanded = true)
    (hparams : ∀ p ∈ c.params, Scope.Unsegmented p) (hlen : c.args.length = c.params.length)
    (hnodup : c.params.Nodup) (hbody : Program.WellBracketed body)
    (hnames : ∀ e ∈ body, e.PlainNames) (name : String) (loc : Location) :
    let inner := Scope.path (s.next :: s.indices)
    ∃ body' s',
      Program.thread State.step s
          ([⟨loc, .call c⟩] ++ (body ++ [⟨loc, .endCall name ""⟩])) =
        ([⟨loc, .call { c with scope := inner }⟩] ++
          (body' ++ [⟨loc, .endCall name inner⟩]), s') ∧
      Program.thread State.step s
          ([⟨loc, .block ""⟩] ++ Macro.bindings loc c.params c.args ++
            (body ++ [⟨loc, .endBlock ""⟩])) =
        ([⟨loc, .block inner⟩] ++ Macro.declaredBindings inner loc c.params c.args ++
          (body' ++ [⟨loc, .endBlock inner⟩]),
          s'.recast s.next (c.params.map (inner ++ ·))) ∧
      Passed s.next s.indices body c s' := by
  intro inner
  obtain ⟨body', s', hold, hnew, hclosed, htable⟩ := thread_body (stack_enterCall_eq s c loc) rfl
    h.closed (next_lt_enterCall s c loc)
    (fun q hq => (mem_names_enterCall hlen loc q).2 (.inr hq)) hbody name loc
  refine ⟨body', s', ?_, ?_, ?_⟩
  · refine Program.thread_append_eq ?_ hold
    rw [Program.thread, step_call s hc]
    rfl
  · exact Program.thread_append_eq (thread_block h hparams hlen hnodup loc) hnew
  · exact passed_body h hparams hlen hnodup hbody hnames name loc (congrArg Prod.snd hold) hclosed
      htable

end
end State

theorem unscoped_thread {s : State} (h : ∀ e ∈ es, e.Unscoped)
    (he : e ∈ (Program.thread State.step s es).1) : e.Unscoped := by
  intro v hv
  obtain ⟨s, a, ha, rfl⟩ := Program.mem_thread he
  rw [s.earlyValues_step a] at hv
  exact h a ha v hv

open State in
/-- Programs with a call and with the block that it stands for declare the same symbols and report
the same. -/
theorem thread_asBlock {front body back : List Element} {c : MacroCall} (loc : Location)
    (name : String) (hc : c.expanded = true)
    (hlen : c.args.length = c.params.length) (hnodup : c.params.Nodup)
    (hbody : Program.WellBracketed body)
    (hnames : ∀ e : Element,
      e ∈ front ++ ([⟨loc, .call c⟩] ++ (body ++ ([⟨loc, .endCall name ""⟩] ++ back))) →
        e.PlainNames)
    (hargs : ∀ e ∈ front, e.Unscoped) :
    let old := Program.thread State.step {}
      (front ++ ([⟨loc, .call c⟩] ++ (body ++ ([⟨loc, .endCall name ""⟩] ++ back))))
    let new := Program.thread State.step {}
      (front ++ ([⟨loc, .block ""⟩] ++ (Macro.bindings loc c.params c.args ++
        (body ++ ([⟨loc, .endBlock ""⟩] ++ back)))))
    ∃ (front' body' back' : List Element) (k : Nat) (ks : List Nat),
      old.1 = front' ++ ([⟨loc, .call { c with scope := Scope.path (k :: ks) }⟩] ++
        (body' ++ ([⟨loc, .endCall name (Scope.path (k :: ks))⟩] ++ back'))) ∧
      new.1 = front' ++ ([⟨loc, .block (Scope.path (k :: ks))⟩] ++
        (Macro.declaredBindings (Scope.path (k :: ks)) loc c.params c.args ++
          (body' ++ ([⟨loc, .endBlock (Scope.path (k :: ks))⟩] ++ back')))) ∧
      new.2.table = old.2.table.blank (c.params.map (Scope.path (k :: ks) ++ ·)) ∧
      new.2.finish.diagnostics = old.2.finish.diagnostics ∧
      (∀ e ∈ front', e.Local k ∧ e.Unscoped) ∧ Passed k ks body c old.2 := by
  intro old new
  simp only [List.mem_append, List.mem_singleton, or_imp, forall_and, forall_eq] at hnames
  obtain ⟨hfront, hparams, hbodyNames, -, hback⟩ := hnames
  generalize hs₀ : (Program.thread State.step {} front).2 = s₀
  have h₀ : Indexed s₀.next s₀ := by
    rw [← hs₀]
    exact (Indexed.initial _).thread hfront fun _ => hargs
  have hlocal : ∀ e ∈ (Program.thread State.step {} front).1, e.Local s₀.next ∧ e.Unscoped :=
    fun e he => ⟨hs₀ ▸ (Indexed.initial 0).thread_local hfront hargs he, unscoped_thread hargs he⟩
  obtain ⟨body', s₁, hcall, hblock, hpassed⟩ :=
    thread_call h₀ hc hparams hlen hnodup hbody hbodyNames name loc
  have hdeclared : ∀ q ∈ c.params.map (Scope.path (s₀.next :: s₀.indices) ++ ·),
      q ∈ s₁.table.names := by
    intro q hq
    obtain ⟨p, hp, rfl⟩ := List.mem_map.1 hq
    exact hpassed.declared p hp
  have hrecast := thread_recast_closed hpassed.closed hpassed.next hdeclared back
  have hfrontEq : Program.thread State.step {} front =
      ((Program.thread State.step {} front).1, s₀) := by
    rw [← hs₀]
  have hold := Program.thread_append_eq hfrontEq (Program.thread_append_eq hcall
    (rfl : Program.thread State.step s₁ back = (_, _)))
  have hnew := Program.thread_append_eq hfrontEq (Program.thread_append_eq hblock hrecast)
  simp only [List.append_assoc] at hold hnew
  refine ⟨(Program.thread State.step {} front).1, body', (Program.thread State.step s₁ back).1,
    s₀.next, s₀.indices, congrArg Prod.fst hold, congrArg Prod.fst hnew, ?_, ?_, hlocal, ?_⟩
  · unfold old new
    rw [hold, hnew]
    rfl
  · unfold old new
    rw [hold, hnew]
    exact finish_recast (hpassed.closed.thread hpassed.next back) _
  · unfold old
    rw [hold]
    exact hpassed.thread hback

end Declarations
end Z80Asm
