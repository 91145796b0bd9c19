import Z80Asm.Proofs.Inlining

/-! Which macros a program defines. A definition counts if it stands outside of all others, has none
inside it, and is the first with its name; whatever else begins or ends a definition is reported. -/

namespace Z80Asm
set_option autoImplicit true

def Statement.header? : Statement → Option (String × List String)
  | .macroDef name params => some (name, params)
  | _ => none

theorem Statement.header?_eq_some {stmt : Statement} :
    stmt.header? = some (name, params) ↔ stmt = .macroDef name params := by
  constructor
  · intro h
    cases stmt with
    | macroDef =>
      cases h
      rfl
    | _ => cases h
  · rintro rfl
    rfl

namespace Macro

def depthAt (es : List Element) (n : Nat) : Nat := Program.depthBehind 0 (es.take n)

def between (es : List Element) (m n : Nat) : List Element := (es.take n).drop (m + 1)

/-- The definition that begins at `m`, with all that stands before `n` as its body. -/
def definitionAt? (es : List Element) (m n : Nat) : Option Macro :=
  es[m]?.bind fun e => e.stmt.header?.map fun header =>
    ⟨header.1, header.2, between es m n, e.loc⟩

/-- A definition outside of all others begins at `m`, and is open before the element at `n`. -/
structure Open (es : List Element) (m n : Nat) : Prop where
  begins : (definitionAt? es m n).isSome = true
  outermost : depthAt es m = 0
  lt : m < n
  inside : ∀ k < n + 1, m < k → 0 < depthAt es k

instance (es : List Element) (m n : Nat) : Decidable (Open es m n) :=
  decidable_of_iff ((definitionAt? es m n).isSome = true ∧ depthAt es m = 0 ∧ m < n ∧
      ∀ k < n + 1, m < k → 0 < depthAt es k)
    ⟨fun ⟨hb, ho, hlt, hi⟩ => ⟨hb, ho, hlt, hi⟩, fun h => ⟨h.begins, h.outermost, h.lt, h.inside⟩⟩

/-- The definition of `M` from `m` to `n` stands outside of all others and has none inside it. -/
structure Complete (es : List Element) (m n : Nat) (M : Macro) : Prop where
  opened : Open es m n
  header : es[m]? = some ⟨M.loc, .macroDef M.name M.params⟩
  body : M.body = between es m n
  flat : ∀ e ∈ M.body, e.stmt.header? = none
  ends : depthAt es (n + 1) = 0

/-- Where the definition around the element at `n` begins. -/
def opener? (es : List Element) (n : Nat) : Option Nat := (List.range n).find? fun m => Open es m n

/-- The definition around the element at `n`, as far as it has come. -/
def begun? (es : List Element) (n : Nat) : Option Macro :=
  (opener? es n).bind fun m => definitionAt? es m n

def completed? (es : List Element) (n : Nat) : Option Macro :=
  (begun? es n).filter fun M =>
    depthAt es (n + 1) = 0 ∧ ∀ e ∈ M.body, e.stmt.header? = none

/-- The complete definitions that have ended before the element at `n`, in order. -/
def definitions (es : List Element) (n : Nat) : List Macro :=
  (List.range n).filterMap (completed? es)

/-- What is reported at the element at `n`: a definition inside another, an end outside of all, and
the end of a complete definition whose name is taken. -/
def report? (es : List Element) (n : Nat) : Option Diagnostic :=
  es[n]?.bind fun e =>
    match e.stmt with
    | .macroDef name _ =>
      (begun? es n).map fun M => ⟨.nestedMacro name M.name M.loc, e.loc⟩
    | .endMacro =>
      if depthAt es n = 0 then some ⟨.endWithoutMacro, e.loc⟩
      else (completed? es n).bind fun M =>
        ((definitions es n).find? (·.name = M.name)).map fun first =>
          ⟨.duplicateMacro M.name first.loc, M.loc⟩
    | _ => none

section
variable {es : List Element}

theorem depthAt_succ (he : es[n]? = some e) :
    depthAt es (n + 1) = Program.depthAfter (depthAt es n) e.stmt := by
  rw [depthAt, List.take_add_one, he, Program.depthBehind, List.foldl_append]
  rfl

theorem between_self (es : List Element) (n : Nat) : between es n (n + 1) = [] :=
  List.drop_take_self

theorem between_succ (hlt : m < n) (he : es[n]? = some e) :
    between es m (n + 1) = between es m n ++ [e] := by
  have hn : n < es.length := (List.getElem?_eq_some_iff.1 he).1
  rw [between, List.take_add_one, he, List.drop_append_of_le_length]
  · rfl
  · rw [List.length_take_of_le (Nat.le_of_lt hn)]
    exact hlt

theorem definitionAt?_eq_some :
    definitionAt? es m n = some M ↔
      es[m]? = some ⟨M.loc, .macroDef M.name M.params⟩ ∧ M.body = between es m n := by
  constructor
  · intro h
    obtain ⟨⟨loc, stmt⟩, he, hmap⟩ := Option.bind_eq_some_iff.1 h
    obtain ⟨⟨name, params⟩, hheader, rfl⟩ := Option.map_eq_some_iff.1 hmap
    obtain rfl := Statement.header?_eq_some.1 hheader
    exact ⟨he, rfl⟩
  · rintro ⟨he, hbody⟩
    rw [definitionAt?, he, ← hbody]
    rfl

theorem Open.unique (h : Open es m n) (h' : Open es m' n) : m' = m := by
  have hle {m m' : Nat} (h : Open es m n) (h' : Open es m' n) : m' ≤ m := by
    apply Nat.le_of_not_lt
    intro hlt
    have hpos := h.inside m' (Nat.lt_succ_of_lt h'.lt) hlt
    rw [h'.outermost] at hpos
    exact Nat.lt_irrefl 0 hpos
  exact Nat.le_antisymm (hle h h') (hle h' h)

theorem Open.pos (h : Open es m n) : 0 < depthAt es n := h.inside n (Nat.lt_succ_self n) h.lt

theorem opener?_eq_some : opener? es n = some m ↔ Open es m n := by
  have hsound {m : Nat} (h : opener? es n = some m) : Open es m n := by
    have hfound := List.find?_some h
    exact of_decide_eq_true hfound
  refine ⟨hsound, fun h => ?_⟩
  have hsome : (opener? es n).isSome := by
    rw [opener?, List.find?_isSome]
    exact ⟨m, List.mem_range.2 h.lt, decide_eq_true h⟩
  obtain ⟨m', hm'⟩ := Option.isSome_iff_exists.1 hsome
  rw [hm', h.unique (hsound hm')]

theorem begun?_eq_some :
    begun? es n = some M ↔ ∃ m, Open es m n ∧ definitionAt? es m n = some M := by
  rw [begun?, Option.bind_eq_some_iff]
  simp only [opener?_eq_some]

theorem begun?_eq_none (h : depthAt es n = 0) : begun? es n = none := by
  rw [Option.eq_none_iff_forall_ne_some]
  intro M hM
  obtain ⟨m, hopen, -⟩ := begun?_eq_some.1 hM
  exact Nat.ne_of_gt hopen.pos h

theorem completed?_eq_some : completed? es n = some M ↔ ∃ m, Complete es m n M := by
  rw [completed?, Option.filter_eq_some_iff, begun?_eq_some, decide_eq_true_eq]
  constructor
  · rintro ⟨⟨m, hopen, hM⟩, hends, hflat⟩
    obtain ⟨hheader, hbody⟩ := definitionAt?_eq_some.1 hM
    exact ⟨m, hopen, hheader, hbody, hflat, hends⟩
  · rintro ⟨m, h⟩
    exact ⟨⟨m, h.opened, definitionAt?_eq_some.2 ⟨h.header, h.body⟩⟩, h.ends, h.flat⟩

theorem completed?_eq_none (h : depthAt es n = 0 ∨ 0 < depthAt es (n + 1)) :
    completed? es n = none := by
  rw [Option.eq_none_iff_forall_ne_some]
  intro M hM
  obtain ⟨m, hcomplete⟩ := completed?_eq_some.1 hM
  rcases h with h | h
  · exact Nat.ne_of_gt hcomplete.opened.pos h
  · exact Nat.ne_of_gt h hcomplete.ends

end

/-- The extraction holds the definition that begins at `m`, and has read all before `n`. -/
structure Tracks (es : List Element) (m n : Nat) (o : Opened) : Prop where
  opened : Open es m n
  header : es[m]? = some ⟨o.loc, .macroDef o.name o.params⟩
  depth : depthAt es n = o.inner + 1
  nests : o.nests = true ↔ ∃ e ∈ between es m n, e.stmt.header?.isSome = true
  body : o.nests = false → o.inner = 0 ∧ o.body.toList = between es m n

def Holding (es : List Element) (n : Nat) : Option Opened → Prop
  | none => depthAt es n = 0
  | some o => ∃ m, Tracks es m n o

structure Scanned (es : List Element) (n : Nat) (s : Extraction) : Prop where
  table : ∀ name, s.table.find? name = (definitions es n).find? (·.name = name)
  nodup : (s.table.map Macro.name).Nodup
  opened : Holding es n s.opened?
  diagnostics : s.diagnostics = (List.range n).filterMap (report? es)

section
variable {es : List Element}

theorem definitions_succ (es : List Element) (n : Nat) :
    definitions es (n + 1) = definitions es n ++ (completed? es n).toList := by
  rw [definitions, List.range_succ, List.filterMap_append]
  rfl

theorem Tracks.begun (h : Tracks es m n o) :
    begun? es n = some ⟨o.name, o.params, between es m n, o.loc⟩ :=
  begun?_eq_some.2 ⟨m, h.opened, definitionAt?_eq_some.2 ⟨h.header, rfl⟩⟩

theorem Tracks.flat_iff (h : Tracks es m n o) :
    (∀ e ∈ between es m n, e.stmt.header? = none) ↔ o.nests = false := by
  rw [← Bool.not_eq_true, h.nests]
  constructor
  · rintro hflat ⟨e, he, hsome⟩
    rw [hflat e he] at hsome
    cases hsome
  · intro hnone e he
    rw [← Option.not_isSome_iff_eq_none]
    exact fun hsome => hnone ⟨e, he, hsome⟩

theorem Tracks.open_next (h : Tracks es m n o) (hpos : 0 < depthAt es (n + 1)) :
    Open es m (n + 1) := by
  refine ⟨?_, h.opened.outermost, Nat.lt_succ_of_lt h.opened.lt, fun k hk hmk => ?_⟩
  · rw [Option.isSome_iff_exists]
    exact ⟨⟨o.name, o.params, between es m (n + 1), o.loc⟩,
      definitionAt?_eq_some.2 ⟨h.header, rfl⟩⟩
  · rcases Nat.lt_succ_iff_lt_or_eq.1 hk with hlt | rfl
    · exact h.opened.inside k hlt hmk
    · exact hpos

/-- A further element is read within a definition that it does not end. -/
theorem Tracks.next {o' : Opened} (h : Tracks es m n o) (he : es[n]? = some e)
    (hname : o'.name = o.name) (hparams : o'.params = o.params) (hloc : o'.loc = o.loc)
    (hdepth : depthAt es (n + 1) = o'.inner + 1)
    (hnests : o'.nests = true ↔ o.nests = true ∨ e.stmt.header?.isSome = true)
    (hbody : o'.nests = false → o'.inner = o.inner ∧ o'.body.toList = o.body.toList ++ [e]) :
    Tracks es m (n + 1) o' := by
  have hbetween := between_succ h.opened.lt he
  refine ⟨h.open_next (hdepth ▸ Nat.succ_pos _), ?_, hdepth, ?_, fun hflat => ?_⟩
  · rw [hname, hparams, hloc]
    exact h.header
  · rw [hnests, h.nests, hbetween]
    simp only [List.mem_append, List.mem_singleton, or_and_right, exists_or, exists_eq_left]
  · obtain ⟨hinner, hbody⟩ := hbody hflat
    have hnone : o.nests = false := by
      rw [← Bool.not_eq_true]
      intro hnests'
      rw [hnests.2 (.inl hnests')] at hflat
      cases hflat
    obtain ⟨hzero, hold⟩ := h.body hnone
    rw [hinner, hbody, hold, hbetween]
    exact ⟨hzero, rfl⟩

theorem report?_macroDef {loc : Location} (he : es[n]? = some ⟨loc, .macroDef x ps⟩) :
    report? es n = (begun? es n).map fun M => ⟨.nestedMacro x M.name M.loc, loc⟩ := by
  rw [report?, he]
  rfl

theorem report?_endMacro {loc : Location} (he : es[n]? = some ⟨loc, .endMacro⟩) :
    report? es n =
      if depthAt es n = 0 then some ⟨.endWithoutMacro, loc⟩
      else (completed? es n).bind fun M =>
        ((definitions es n).find? (·.name = M.name)).map fun first =>
          ⟨.duplicateMacro M.name first.loc, M.loc⟩ := by
  rw [report?, he]
  rfl

theorem report?_of_not_mark (he : es[n]? = some e) (hm : Program.isMark e.stmt = false) :
    report? es n = none := by
  rw [report?, he, Option.bind_some]
  cases hs : e.stmt with
  | macroDef | endMacro =>
    rw [hs] at hm
    cases hm
  | _ => rfl

section
variable {s : Extraction}

theorem filterMap_report?_succ (es : List Element) (n : Nat) :
    (List.range (n + 1)).filterMap (report? es) =
      (List.range n).filterMap (report? es) ++ (report? es n).toList := by
  rw [List.range_succ, List.filterMap_append]
  rfl

theorem Scanned.skip (h : Scanned es n s) (hcompleted : completed? es n = none)
    (hreport : report? es n = none) (hopened : Holding es (n + 1) opened?) :
    Scanned es (n + 1) { s with opened? } := by
  refine ⟨?_, h.nodup, hopened, ?_⟩
  · rw [definitions_succ, hcompleted, Option.toList_none, List.append_nil]
    exact h.table
  · rw [filterMap_report?_succ, ← h.diagnostics, hreport]
    exact (List.append_nil _).symm

theorem Scanned.report {loc : Location} (h : Scanned es n s) (hcompleted : completed? es n = none)
    (hreport : report? es n = some ⟨p, loc⟩) (hopened : Holding es (n + 1) opened?) :
    Scanned es (n + 1) (({ s with opened? } : Extraction).report p loc) := by
  refine ⟨?_, h.nodup, hopened, ?_⟩
  · rw [definitions_succ, hcompleted, Option.toList_none, List.append_nil]
    exact h.table
  · rw [filterMap_report?_succ, ← h.diagnostics, hreport]
    rfl

/-- Outside of definitions one is begun, and what ends one is reported. -/
theorem Scanned.outside (h : Scanned es n s) (ho : s.opened? = none) (he : es[n]? = some e) :
    Scanned es (n + 1) (s.step e) := by
  obtain ⟨table, diagnostics, opened?⟩ := s
  cases ho
  have hzero : depthAt es n = 0 := h.opened
  have hcompleted := completed?_eq_none (.inl hzero)
  have hdepth := depthAt_succ he
  rw [hzero] at hdepth
  obtain ⟨loc, stmt⟩ := e
  cases stmt with
  | macroDef x ps =>
    have hreport : report? es n = none := by
      rw [report?_macroDef he, begun?_eq_none hzero]
      rfl
    have htracks : Tracks es n (n + 1) { name := x, params := ps, loc } := by
      refine ⟨⟨?_, hzero, Nat.lt_succ_self n, fun k hk hnk => ?_⟩, he, hdepth, ?_, ?_⟩
      · rw [definitionAt?, he]
        rfl
      · rw [Nat.le_antisymm (Nat.le_of_lt_succ hk) hnk, hdepth]
        exact Nat.succ_pos 0
      · rw [between_self]
        exact iff_of_false Bool.false_ne_true fun ⟨_, he, _⟩ => List.not_mem_nil he
      · rw [between_self]
        exact fun _ => ⟨rfl, rfl⟩
    have hnext : Holding es (n + 1) (some { name := x, params := ps, loc }) := ⟨n, htracks⟩
    exact h.skip hcompleted hreport hnext
  | endMacro =>
    have hreport : report? es n = some ⟨.endWithoutMacro, loc⟩ := by
      rw [report?_endMacro he, if_pos hzero]
    have hnext : Holding es (n + 1) none := hdepth
    exact h.report hcompleted hreport hnext
  | _ =>
    have hnext : Holding es (n + 1) none := hdepth
    exact h.skip hcompleted (report?_of_not_mark he rfl) hnext

/-- Within a definition all but its end is added to it or reported. -/
theorem Scanned.inside (h : Scanned es n s) (ho : s.opened? = some o) (htracks : Tracks es m n o)
    (he : es[n]? = some e) (hpos : 0 < depthAt es (n + 1)) : Scanned es (n + 1) (s.step e) := by
  obtain ⟨table, diagnostics, opened?⟩ := s
  cases ho
  have hcompleted := completed?_eq_none (.inr hpos)
  have hdepth := depthAt_succ he
  rw [htracks.depth] at hdepth
  obtain ⟨loc, stmt⟩ := e
  cases stmt with
  | macroDef x ps =>
    have hreport : report? es n = some ⟨.nestedMacro x o.name o.loc, loc⟩ := by
      rw [report?_macroDef he, htracks.begun]
      rfl
    have hnext : Holding es (n + 1) (some { o with inner := o.inner + 1, nests := true }) :=
      ⟨m, htracks.next he rfl rfl rfl hdepth ⟨fun _ => .inr rfl, fun _ => rfl⟩ nofun⟩
    exact h.report hcompleted hreport hnext
  | endMacro =>
    have hreport : report? es n = none := by
      rw [report?_endMacro he, htracks.depth, if_neg (Nat.succ_ne_zero _), hcompleted]
      rfl
    obtain ⟨name, params, oloc, body, inner, nests⟩ := o
    cases inner with
    | zero =>
      rw [hdepth] at hpos
      cases hpos
    | succ inner =>
      have hnext : Holding es (n + 1) (some ⟨name, params, oloc, body, inner, nests⟩) := by
        refine ⟨m, htracks.next he rfl rfl rfl hdepth (or_iff_left nofun).symm fun hflat => ?_⟩
        cases (htracks.body hflat).1
      exact h.skip hcompleted hreport hnext
  | _ =>
    have hnext : Holding es (n + 1) (some { o with body := o.body.push _ }) :=
      ⟨m, htracks.next he rfl rfl rfl hdepth (or_iff_left nofun).symm
        fun _ => ⟨rfl, Array.toList_push⟩⟩
    exact h.skip hcompleted (report?_of_not_mark he rfl) hnext

theorem find?_definitions_succ (es : List Element) (n : Nat) (name : String) :
    (definitions es (n + 1)).find? (·.name = name) =
      ((definitions es n).find? (·.name = name)).or
        ((completed? es n).toList.find? (·.name = name)) := by
  rw [definitions_succ, List.find?_append]

theorem Tracks.completed?_of_nests (h : Tracks es m n o) (hnests : o.nests = true) :
    completed? es n = none := by
  rw [Option.eq_none_iff_forall_ne_some]
  intro M hM
  obtain ⟨m', hcomplete⟩ := completed?_eq_some.1 hM
  obtain rfl := h.opened.unique hcomplete.opened
  have hflat := h.flat_iff.1 (hcomplete.body ▸ hcomplete.flat)
  rw [hnests] at hflat
  cases hflat

theorem Tracks.completed?_of_flat (h : Tracks es m n o) (hnests : o.nests = false)
    (hends : depthAt es (n + 1) = 0) : completed? es n = some o.close := by
  have hbody := (h.body hnests).2
  have hflat : ∀ e ∈ o.body.toList, e.stmt.header? = none :=
    fun e he => h.flat_iff.2 hnests e (hbody ▸ he)
  exact completed?_eq_some.2 ⟨m, h.opened, h.header, hbody, hflat, hends⟩

theorem Scanned.refuse {loc : Location} (h : Scanned es n s)
    (hcompleted : completed? es n = some M) (hfind : s.table.find? M.name = some first)
    (hreport : report? es n = some ⟨p, loc⟩) (hends : depthAt es (n + 1) = 0) :
    Scanned es (n + 1) (({ s with opened? := none } : Extraction).report p loc) := by
  refine ⟨fun name => ?_, h.nodup, hends, ?_⟩
  · rw [find?_definitions_succ, hcompleted, Option.toList_some, List.find?_singleton, ← h.table]
    by_cases hn : M.name = name
    · subst hn
      rw [hfind]
      exact hfind
    · rw [if_neg fun h => hn (of_decide_eq_true h), Option.or_none]
      rfl
  · rw [filterMap_report?_succ, ← h.diagnostics, hreport]
    rfl

theorem Scanned.keep (h : Scanned es n s) (hcompleted : completed? es n = some M)
    (hfind : s.table.find? M.name = none) (hreport : report? es n = none)
    (hends : depthAt es (n + 1) = 0) :
    Scanned es (n + 1) { s with opened? := none, table := s.table ++ [M] } := by
  refine ⟨fun name => ?_, ?_, hends, ?_⟩
  · rw [find?_definitions_succ, hcompleted, Option.toList_some, ← h.table]
    exact List.find?_append
  · dsimp only
    rw [List.map_append, List.nodup_append']
    refine ⟨h.nodup, List.nodup_singleton _, fun name hmem hlast => ?_⟩
    obtain ⟨M', hM', rfl⟩ := List.mem_map.1 hmem
    exact List.find?_eq_none.1 hfind M' hM' (decide_eq_true (List.mem_singleton.1 hlast))
  · rw [filterMap_report?_succ, ← h.diagnostics, hreport]
    exact (List.append_nil _).symm

/-- With the end of a definition it is kept, unless there is one inside it or its name is taken. -/
theorem Scanned.ended {loc : Location} (h : Scanned es n s) (htracks : Tracks es m n o)
    (he : es[n]? = some ⟨loc, .endMacro⟩) (hends : depthAt es (n + 1) = 0) :
    Scanned es (n + 1) (s.finish o) := by
  have hreport := report?_endMacro he
  rw [htracks.depth, if_neg (Nat.succ_ne_zero _)] at hreport
  unfold Extraction.finish
  cases hnests : o.nests with
  | true =>
    have hcompleted := htracks.completed?_of_nests hnests
    rw [hcompleted] at hreport
    have hnext : Holding es (n + 1) none := hends
    exact h.skip hcompleted hreport hnext
  | false =>
    have hcompleted := htracks.completed?_of_flat hnests hends
    have hname : o.close.name = o.name := rfl
    rw [hcompleted, Option.bind_some, hname, ← h.table] at hreport
    dsimp only
    rw [if_neg Bool.false_ne_true]
    cases hfind : s.table.find? o.name with
    | some first =>
      rw [hfind, Option.map_some] at hreport
      exact h.refuse hcompleted hfind hreport hends
    | none =>
      rw [hfind, Option.map_none] at hreport
      exact h.keep hcompleted hfind hreport hends

theorem Scanned.step (h : Scanned es n s) (he : es[n]? = some e) :
    Scanned es (n + 1) (s.step e) := by
  cases ho : s.opened? with
  | none => exact h.outside ho he
  | some o =>
    have hopened := h.opened
    rw [ho] at hopened
    obtain ⟨m, htracks⟩ := hopened
    rcases Nat.eq_zero_or_pos (depthAt es (n + 1)) with hends | hpos
    · have hdepth := depthAt_succ he
      rw [hends, htracks.depth] at hdepth
      obtain ⟨loc, stmt⟩ := e
      obtain ⟨table, diagnostics, opened?⟩ := s
      cases ho
      cases stmt with
      | endMacro =>
        have hinner : o.inner = 0 := hdepth.symm
        have hstep : (⟨table, diagnostics, some o⟩ : Extraction).step ⟨loc, .endMacro⟩ =
            (⟨table, diagnostics, some o⟩ : Extraction).finish o := by
          unfold Extraction.step
          dsimp only
          rw [hinner]
        rw [hstep]
        exact h.ended htracks he hends
      | _ => exact (Nat.succ_ne_zero _ hdepth.symm).elim
    · exact h.inside ho htracks he hpos

end

theorem scanned (es : List Element) (hn : n ≤ es.length) :
    Scanned es n ((es.take n).foldl Extraction.step {}) := by
  induction n with
  | zero => exact ⟨fun _ => rfl, List.nodup_nil, rfl, rfl⟩
  | succ n ih =>
    have he : es[n]? = some es[n] := List.getElem?_eq_getElem hn
    rw [List.take_add_one, he, List.foldl_append]
    exact (ih (Nat.le_of_succ_le hn)).step he

theorem begun?_isSome (hn : n ≤ es.length) : (begun? es n).isSome = true ↔ 0 < depthAt es n := by
  constructor
  · intro h
    obtain ⟨M, hM⟩ := Option.isSome_iff_exists.1 h
    obtain ⟨m, hopen, -⟩ := begun?_eq_some.1 hM
    exact hopen.pos
  · intro hpos
    have hopened := (scanned es hn).opened
    cases ho : ((es.take n).foldl Extraction.step {}).opened? with
    | none =>
      rw [ho] at hopened
      exact (Nat.ne_of_gt hpos hopened).elim
    | some o =>
      rw [ho] at hopened
      obtain ⟨m, htracks⟩ := hopened
      rw [htracks.begun]
      rfl

end

theorem Complete.lt_length {es : List Element} (h : Complete es m n M) : n < es.length := by
  apply Nat.lt_of_not_le
  intro hle
  have hsame : depthAt es (n + 1) = depthAt es n := by
    rw [depthAt, depthAt, List.take_of_length_le hle,
      List.take_of_length_le (Nat.le_succ_of_le hle)]
  exact Nat.ne_of_gt h.opened.pos (hsame ▸ h.ends)

theorem find?_definitions {es : List Element} {name : String} :
    (definitions es es.length).find? (·.name = name) = some M ↔
      ∃ m n, Complete es m n M ∧ M.name = name ∧
        ∀ m' n' M', Complete es m' n' M' → M'.name = name → n ≤ n' := by
  have hnamed (n : Nat) : (completed? es n).any (·.name = name) = true ↔
      ∃ m M, Complete es m n M ∧ M.name = name := by
    rw [Option.any_eq_true]
    simp only [completed?_eq_some, decide_eq_true_eq]
    constructor
    · rintro ⟨M, ⟨m, hM⟩, hname⟩
      exact ⟨m, M, hM, hname⟩
    · rintro ⟨m, M, hM, hname⟩
      exact ⟨M, ⟨m, hM⟩, hname⟩
  rw [definitions, List.find?_filterMap, Option.bind_eq_some_iff]
  simp only [List.find?_range_eq_some, List.mem_range, Bool.not_eq_true', ← Bool.not_eq_true,
    hnamed]
  constructor
  · rintro ⟨n, ⟨⟨m₀, M₀, hM₀, hname⟩, -, hbefore⟩, hM⟩
    obtain ⟨m, hcomplete⟩ := completed?_eq_some.1 hM
    have heq : M₀ = M :=
      Option.some.inj ((completed?_eq_some.2 ⟨m₀, hM₀⟩).symm.trans hM)
    refine ⟨m, n, hcomplete, heq ▸ hname, fun m' n' M' hM' hname' => ?_⟩
    exact Nat.le_of_not_lt fun hlt => hbefore n' hlt ⟨m', M', hM', hname'⟩
  · rintro ⟨m, n, hcomplete, hname, hleast⟩
    refine ⟨n, ⟨⟨m, M, hcomplete, hname⟩, hcomplete.lt_length, fun n' hlt => ?_⟩,
      completed?_eq_some.2 ⟨m, hcomplete⟩⟩
    rintro ⟨m', M', hM', hname'⟩
    exact Nat.not_lt_of_le (hleast m' n' M' hM' hname') hlt

theorem exists_first {es : List Element} {name : String} (h : Complete es m n M)
    (hname : M.name = name) : ∃ M, (definitions es es.length).find? (·.name = name) = some M := by
  apply Option.isSome_iff_exists.1
  rw [List.find?_isSome]
  refine ⟨M, ?_, decide_eq_true hname⟩
  exact List.mem_filterMap.2 ⟨n, List.mem_range.2 h.lt_length, completed?_eq_some.2 ⟨m, h⟩⟩

theorem extract_fst (es : List Element) :
    (extract es).1 = (es.foldl Extraction.step {}).table := by
  unfold extract
  dsimp only
  split <;> rfl

theorem scanned_all (es : List Element) :
    Scanned es es.length (es.foldl Extraction.step {}) := by
  have h := scanned es (Nat.le_refl _)
  rwa [List.take_length] at h

theorem find?_extract {es : List Element} {name : String} :
    (extract es).1.find? name = some M ↔
      ∃ m n, Complete es m n M ∧ M.name = name ∧
        ∀ m' n' M', Complete es m' n' M' → M'.name = name → n ≤ n' := by
  rw [extract_fst, (scanned_all es).table]
  exact find?_definitions

theorem find?_of_nodup {t : MacroTable} (h : (t.map Macro.name).Nodup) (hM : M ∈ t) :
    t.find? M.name = some M := by
  obtain ⟨front, back, rfl⟩ := List.append_of_mem hM
  rw [List.map_append, List.map_cons, List.nodup_append'] at h
  have hfront : front.find? (·.name = M.name) = none := by
    rw [List.find?_eq_none]
    intro M' hM' hname
    apply h.2.2 (List.mem_map_of_mem hM')
    rw [of_decide_eq_true hname]
    exact List.mem_cons_self
  change (front ++ M :: back).find? (·.name = M.name) = some M
  rw [List.find?_append, hfront, Option.none_or]
  exact List.find?_cons_of_pos (decide_eq_true rfl)

theorem exists_complete {es : List Element} (h : M ∈ (extract es).1) :
    ∃ m n, Complete es m n M := by
  have hnodup := (scanned_all es).nodup
  rw [← extract_fst] at hnodup
  obtain ⟨m, n, hcomplete, -⟩ := find?_extract.1 (find?_of_nodup hnodup h)
  exact ⟨m, n, hcomplete⟩

/-- A complete definition is closed by the element at which it ends. -/
theorem Complete.close {es : List Element} (h : Complete es m n M) :
    ∃ loc, es[n]? = some ⟨loc, .endMacro⟩ := by
  obtain ⟨⟨loc, stmt⟩, he⟩ : ∃ e, es[n]? = some e := ⟨_, List.getElem?_eq_getElem h.lt_length⟩
  have hdepth := depthAt_succ he
  rw [h.ends] at hdepth
  have hpos := h.opened.pos
  cases stmt with
  | endMacro => exact ⟨loc, he⟩
  | macroDef => cases hdepth
  | _ => exact (Nat.ne_of_lt hpos hdepth).elim

/-- A program defines exactly the macros with a complete definition, each by the first one with its
name and with just what stands in that as its body. All else that begins or ends a definition is
reported: a definition inside another, an end outside of all, a complete definition whose name is
taken, and one that has no end. -/
theorem extract_exact (es : List Element) :
    (∀ name M, (extract es).1.find? name = some M ↔
        ∃ m n, Complete es m n M ∧ M.name = name ∧
          ∀ m' n' M', Complete es m' n' M' → M'.name = name → n ≤ n') ∧
      (∀ name, ((extract es).1.find? name).isSome = true ↔
        ∃ m n M, Complete es m n M ∧ M.name = name) ∧
      ((extract es).1.map Macro.name).Nodup ∧
      (∀ M ∈ (extract es).1, ∀ e ∈ M.body, Program.isMark e.stmt = false) ∧
      (∀ n ≤ es.length, (begun? es n).isSome = true ↔ 0 < depthAt es n) ∧
      (∀ n M, completed? es n = some M ↔ ∃ m, Complete es m n M) ∧
      (extract es).2 = (List.range es.length).filterMap (report? es) ++
        ((begun? es es.length).map fun M => ⟨.unclosedMacro M.name, M.loc⟩).toList := by
  have hscanned := scanned_all es
  refine ⟨fun name M => find?_extract, fun name => ?_, ?_, plain_extract es,
    fun n hn => begun?_isSome hn, fun n M => completed?_eq_some, ?_⟩
  · rw [Option.isSome_iff_exists]
    constructor
    · rintro ⟨M, hM⟩
      obtain ⟨m, n, hcomplete, hname, -⟩ := find?_extract.1 hM
      exact ⟨m, n, M, hcomplete, hname⟩
    · rintro ⟨m, n, M, hcomplete, hname⟩
      rw [extract_fst, hscanned.table]
      exact exists_first hcomplete hname
  · rw [extract_fst]
    exact hscanned.nodup
  · have hopened := hscanned.opened
    unfold extract
    dsimp only
    cases ho : (es.foldl Extraction.step {}).opened? with
    | none =>
      rw [ho] at hopened
      rw [begun?_eq_none hopened]
      exact hscanned.diagnostics.trans (List.append_nil _).symm
    | some o =>
      rw [ho] at hopened
      obtain ⟨m, htracks⟩ := hopened
      rw [htracks.begun, ← hscanned.diagnostics]
      rfl

end Macro
end Z80Asm
