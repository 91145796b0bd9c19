import Z80Asm.Proofs.Paths
import Z80Asm.Source.Include

/-! Reading a file with all that it includes, step by step: the files that are open form a chain,
and the keys of those files are marked while they are open. No file is ever opened inside itself, so
reading ends, and what has been read then are the elements of the file with those of the included
files behind the elements that include them. -/

namespace Z80Asm.Source
set_option autoImplicit true

/-- A file that is being read, with the elements of it that are still to come. -/
structure OpenFile where
  path : String
  rest : List Element

/-- The state of reading: the files that are open, innermost first, the keys that are marked as
being read, and what has been read so far. -/
structure Reading where
  chain : List OpenFile := []
  active : Finset String := ∅
  out : List Element := []
  diagnostics : List Diagnostic := []

namespace Reading

def report (s : Reading) (p : Problem) (loc : Location) : Reading :=
  { s with diagnostics := s.diagnostics ++ [⟨p, loc⟩] }

def enter (lib : Library) (s : Reading) (path : String) (lines : List String) : Reading :=
  { s with
    chain := ⟨path, (elementsOfLines path lines).1⟩ :: s.chain
    active := insert (Path.key lib.workDir path) s.active
    diagnostics := s.diagnostics ++ (elementsOfLines path lines).2 }

/-- Takes the element `e` over from the file `path`, of which `rest` is left. -/
def take (s : Reading) (path : String) (e : Element) (rest : List Element)
    (outer : List OpenFile) : Reading :=
  { s with chain := ⟨path, rest⟩ :: outer, out := s.out ++ [e] }

/-- One step: the innermost file is closed if nothing is left of it, or else its next element is
taken over, and the file that it includes is opened. -/
def step (lib : Library) (s : Reading) : Option Reading :=
  match s.chain with
  | [] => none
  | ⟨path, []⟩ :: outer =>
    some { s with chain := outer, active := s.active.erase (Path.key lib.workDir path) }
  | ⟨path, e :: rest⟩ :: outer =>
    let s' := s.take path e rest outer
    match e.stmt with
    | .includeFile name =>
      match lib.locate path name with
      | .error tried => some (s'.report (.includeNotFound name tried) e.loc)
      | .ok (found, lines) =>
        if Path.key lib.workDir found ∈ s'.active then some (s'.report (.includeCycle name) e.loc)
        else some (s'.enter lib found lines)
    | _ => some s'

def after (lib : Library) (s : Reading) : Nat → Reading
  | 0 => s
  | n + 1 => ((s.after lib n).step lib).getD (s.after lib n)

def keys (lib : Library) (s : Reading) : List String :=
  s.chain.map fun f => Path.key lib.workDir f.path

end Reading

/-- `Expands lib chain source es out ds`: in the file `source`, where `chain` are the keys of the
files that are open, the elements `es` become `out` with the files they include behind them, and
`ds` is reported on the way. -/
inductive Expands (lib : Library) :
    List String → String → List Element → List Element → List Diagnostic → Prop where
  | nil : Expands lib chain source [] [] []
  | other (e : Element) : (∀ name, e.stmt ≠ .includeFile name) →
      Expands lib chain source es out ds →
      Expands lib chain source (e :: es) (e :: out) ds
  | missing (e : Element) : e.stmt = .includeFile name → lib.locate source name = .error tried →
      Expands lib chain source es out ds →
      Expands lib chain source (e :: es) (e :: out) (⟨.includeNotFound name tried, e.loc⟩ :: ds)
  | circular (e : Element) : e.stmt = .includeFile name →
      lib.locate source name = .ok (found, lines) →
      Path.key lib.workDir found ∈ chain → Expands lib chain source es out ds →
      Expands lib chain source (e :: es) (e :: out) (⟨.includeCycle name, e.loc⟩ :: ds)
  | included (e : Element) : e.stmt = .includeFile name →
      lib.locate source name = .ok (found, lines) →
      Path.key lib.workDir found ∉ chain →
      Expands lib (Path.key lib.workDir found :: chain) found (elementsOfLines found lines).1
        nested ds' →
      Expands lib chain source es out ds →
      Expands lib chain source (e :: es) (e :: (nested ++ out))
        ((elementsOfLines found lines).2 ++ ds' ++ ds)

theorem Library.load?_of_locate {lib : Library} (h : lib.locate source name = .ok (found, lines)) :
    lib.load? found = some lines := by
  unfold locate at h
  dsimp only at h
  split at h
  · rename_i hload
    cases h
    exact hload
  · split at h
    · rename_i hload
      cases h
      exact hload
    · cases h

/-- The fresh keys are those of files that can be loaded and are not open. -/
def Fresh (lib : Library) (fresh : List String) (isOpen : String → Prop) : Prop :=
  ∀ path lines, lib.load? path = some lines →
    (Path.key lib.workDir path ∈ fresh ↔ ¬ isOpen (Path.key lib.workDir path))

theorem Fresh.without {isOpen : String → Prop} (h : Fresh lib fresh isOpen) (key : String) :
    Fresh lib (without fresh key) fun k => k = key ∨ isOpen k := by
  intro path lines hload
  rw [Source.without, List.mem_filter, decide_eq_true_eq, not_or, h path lines hload]
  exact and_comm

theorem Fresh.congr {isOpen isOpen' : String → Prop} (h : Fresh lib fresh isOpen)
    (hopen : ∀ k, isOpen k ↔ isOpen' k) : Fresh lib fresh isOpen' := by
  intro path lines hload
  rw [h path lines hload, hopen]

theorem follow_other (h : ∀ name, e.stmt ≠ .includeFile name) :
    follow lib fresh source (e :: es) =
      (e :: (follow lib fresh source es).1, (follow lib fresh source es).2) := by
  rw [follow]
  dsimp only
  split
  · rename_i name hname
    exact (h name hname).elim
  · rfl

theorem follow_missing (h : e.stmt = .includeFile name)
    (hloc : lib.locate source name = .error tried) :
    follow lib fresh source (e :: es) =
      (e :: (follow lib fresh source es).1,
        ⟨.includeNotFound name tried, e.loc⟩ :: (follow lib fresh source es).2) := by
  rw [follow]
  simp only [h, hloc]

theorem follow_circular (h : e.stmt = .includeFile name)
    (hloc : lib.locate source name = .ok (found, lines))
    (hkey : Path.key lib.workDir found ∉ fresh) :
    follow lib fresh source (e :: es) =
      (e :: (follow lib fresh source es).1,
        ⟨.includeCycle name, e.loc⟩ :: (follow lib fresh source es).2) := by
  rw [follow]
  simp only [h, hloc, hkey, ↓reduceDIte]

theorem follow_included (h : e.stmt = .includeFile name)
    (hloc : lib.locate source name = .ok (found, lines))
    (hkey : Path.key lib.workDir found ∈ fresh) :
    follow lib fresh source (e :: es) =
      (e :: ((follow lib (without fresh (Path.key lib.workDir found)) found
          (elementsOfLines found lines).1).1 ++ (follow lib fresh source es).1),
        (elementsOfLines found lines).2 ++
          (follow lib (without fresh (Path.key lib.workDir found)) found
            (elementsOfLines found lines).1).2 ++ (follow lib fresh source es).2) := by
  rw [follow]
  simp only [h, hloc, hkey, ↓reduceDIte]
  rfl

theorem follow_expands {chain : List String} (h : Fresh lib fresh (· ∈ chain)) (source : String)
    (es : List Element) :
    Expands lib chain source es (follow lib fresh source es).1 (follow lib fresh source es).2 := by
  induction fresh, source, es using follow.induct lib generalizing chain with
  | case1 fresh source =>
    rw [follow]
    exact .nil
  | case2 fresh source e es _ _ _ name hstmt tried hloc ih =>
    rw [follow_missing hstmt hloc]
    exact .missing e hstmt hloc (ih h)
  | case3 =>
    rename_i fresh source e es _ _ _ name hstmt found lines hloc key hkey _ _ hlines _ _ _ ih ih'
    rw [follow_included hstmt hloc hkey]
    have hopen : Fresh lib (without fresh (Path.key lib.workDir found))
        (· ∈ Path.key lib.workDir found :: chain) :=
      (h.without _).congr fun _ => List.mem_cons.symm
    refine .included e hstmt hloc ((h found lines (Library.load?_of_locate hloc)).1 hkey) ?_ (ih h)
    rw [hlines]
    exact ih' hopen
  | case4 =>
    rename_i fresh source e es _ _ _ name hstmt found lines hloc key hkey ih
    rw [follow_circular hstmt hloc hkey]
    refine .circular e hstmt hloc ?_ (ih h)
    by_contra hopen
    exact hkey ((h found lines (Library.load?_of_locate hloc)).2 hopen)
  | case5 fresh source e es _ _ _ hstmt ih =>
    rw [follow_other hstmt]
    exact .other e hstmt (ih h)

namespace Reading

theorem after_add (lib : Library) (s : Reading) (m n : Nat) :
    s.after lib (m + n) = (s.after lib m).after lib n := by
  induction n with
  | zero => rfl
  | succ n ih => rw [← Nat.add_assoc, after, after, ih]

theorem after_one (h : step lib s = some s') : s.after lib 1 = s' := by
  rw [after, after, h]
  rfl

/-- Reading gets from `s` to `s'`, and until then there are always more than `floor` files open. -/
def Runs (lib : Library) (floor : Nat) (s s' : Reading) : Prop :=
  ∃ n, s.after lib n = s' ∧ ∀ k < n, floor < (s.after lib k).chain.length

theorem Runs.refl (lib : Library) (floor : Nat) (s : Reading) : Runs lib floor s s :=
  ⟨0, rfl, fun _ h => nomatch h⟩

theorem Runs.of_step (hfloor : floor < s.chain.length) (h : step lib s = some s') :
    Runs lib floor s s' := by
  refine ⟨1, after_one h, fun k hk => ?_⟩
  rw [Nat.lt_one_iff.1 hk]
  exact hfloor

theorem Runs.trans (h : Runs lib floor s s') (h' : Runs lib floor s' s'') :
    Runs lib floor s s'' := by
  obtain ⟨n, rfl, hn⟩ := h
  obtain ⟨m, rfl, hm⟩ := h'
  refine ⟨n + m, after_add lib s n m, fun k hk => ?_⟩
  by_cases hkn : k < n
  · exact hn k hkn
  · obtain ⟨j, rfl⟩ := Nat.exists_eq_add_of_le (Nat.le_of_not_lt hkn)
    rw [after_add]
    exact hm j (Nat.lt_of_add_lt_add_left hk)

theorem Runs.mono (h : Runs lib floor s s') (hle : floor' ≤ floor) : Runs lib floor' s s' := by
  obtain ⟨n, hs, hn⟩ := h
  exact ⟨n, hs, fun k hk => Nat.lt_of_le_of_lt hle (hn k hk)⟩

section
variable {lib : Library} {s s' : Reading} {path : String} {e : Element} {rest : List Element}
  {outer : List OpenFile}

theorem step_close (h : s.chain = ⟨path, []⟩ :: outer) :
    s.step lib =
      some { s with chain := outer, active := s.active.erase (Path.key lib.workDir path) } := by
  unfold step
  rw [h]

theorem step_other (h : s.chain = ⟨path, e :: rest⟩ :: outer)
    (he : ∀ name, e.stmt ≠ .includeFile name) : s.step lib = some (s.take path e rest outer) := by
  unfold step
  rw [h]
  dsimp only
  split
  · rename_i name hname
    exact (he name hname).elim
  · rfl

theorem step_missing (h : s.chain = ⟨path, e :: rest⟩ :: outer) (he : e.stmt = .includeFile name)
    (hloc : lib.locate path name = .error tried) :
    s.step lib = some ((s.take path e rest outer).report (.includeNotFound name tried) e.loc) := by
  unfold step
  rw [h]
  simp only [he, hloc]

theorem step_include (h : s.chain = ⟨path, e :: rest⟩ :: outer) (he : e.stmt = .includeFile name)
    (hloc : lib.locate path name = .ok (found, lines)) :
    s.step lib = some (if Path.key lib.workDir found ∈ s.active then
      (s.take path e rest outer).report (.includeCycle name) e.loc
      else (s.take path e rest outer).enter lib found lines) := by
  unfold step
  rw [h]
  simp only [he, hloc, apply_ite some]
  rfl

end

theorem lt_length_chain {s : Reading} {f : OpenFile} {outer : List OpenFile}
    (hs : s.chain = f :: outer) : outer.length < s.chain.length := by
  rw [hs]
  exact Nat.lt_succ_self _

/-- A file is opened, worked off and closed. Closing it takes back the mark that opening it has
set. -/
theorem runs_of_included {s : Reading} {out : List Element} {outer : List OpenFile}
    (hs : s.chain = ⟨source, e :: es⟩ :: outer) (he : e.stmt = .includeFile name)
    (hloc : lib.locate source name = .ok (found, lines))
    (hkey : Path.key lib.workDir found ∉ s.active)
    (hread : Runs lib (outer.length + 1) ((s.take source e es outer).enter lib found lines)
      ⟨⟨found, []⟩ :: ⟨source, es⟩ :: outer, insert (Path.key lib.workDir found) s.active,
        s.out ++ [e] ++ out, s.diagnostics ++ (elementsOfLines found lines).2 ++ ds⟩) :
    Runs lib outer.length s
      ⟨⟨source, es⟩ :: outer, s.active, s.out ++ [e] ++ out,
        s.diagnostics ++ (elementsOfLines found lines).2 ++ ds⟩ := by
  have hopen := step_include hs he hloc
  rw [if_neg hkey] at hopen
  have hclose : step lib
      ⟨⟨found, []⟩ :: ⟨source, es⟩ :: outer, insert (Path.key lib.workDir found) s.active,
        s.out ++ [e] ++ out, s.diagnostics ++ (elementsOfLines found lines).2 ++ ds⟩ =
      some ⟨⟨source, es⟩ :: outer, s.active, s.out ++ [e] ++ out,
        s.diagnostics ++ (elementsOfLines found lines).2 ++ ds⟩ := by
    rw [step_close rfl]
    dsimp only
    rw [Finset.erase_insert hkey]
  have hopening := Runs.of_step (lt_length_chain hs) hopen
  have hclosing := Runs.of_step (Nat.lt_succ_of_lt (Nat.lt_succ_self outer.length)) hclose
  exact (hopening.trans (hread.mono (Nat.le_succ _))).trans hclosing

/-- Reading works off the innermost file as it is expanded, and leaves the others open. -/
theorem runs_of_expands {opened : List String} {out : List Element} {outer : List OpenFile}
    {s : Reading} (h : Expands lib opened source es out ds) (hs : s.chain = ⟨source, es⟩ :: outer)
    (ha : ∀ k, k ∈ s.active ↔ k ∈ opened) :
    Runs lib outer.length s
      { s with
        chain := ⟨source, []⟩ :: outer
        out := s.out ++ out
        diagnostics := s.diagnostics ++ ds } := by
  induction h generalizing s outer with
  | nil =>
    rw [List.append_nil, List.append_nil, ← hs]
    exact .refl _ _ s
  | other e he _ ih =>
    have hrun := ih (s := s.take _ e _ outer) rfl ha
    rw [take, List.append_assoc] at hrun
    exact (Runs.of_step (lt_length_chain hs) (step_other hs he)).trans hrun
  | missing e he hloc _ ih =>
    rename_i name _ tried _ _ _ _ _
    have hrun := ih (s := (s.take _ e _ outer).report (.includeNotFound name tried) e.loc) rfl ha
    rw [report, take, List.append_assoc, List.append_assoc] at hrun
    exact (Runs.of_step (lt_length_chain hs) (step_missing hs he hloc)).trans hrun
  | circular e he hloc hkey _ ih =>
    rename_i name _ _ _ _ _ _ _ _
    have hstep := step_include hs he hloc
    rw [if_pos ((ha _).2 hkey)] at hstep
    have hrun := ih (s := (s.take _ e _ outer).report (.includeCycle name) e.loc) rfl ha
    rw [report, take, List.append_assoc, List.append_assoc] at hrun
    exact (Runs.of_step (lt_length_chain hs) hstep).trans hrun
  | included e he hloc hkey _ _ ihnested ih =>
    rename_i name source found lines opened nested ds' es out ds _ _
    have hopened (k : String) : k ∈ ((s.take source e es outer).enter lib found lines).active ↔
        k ∈ Path.key lib.workDir found :: opened := by
      rw [enter, Finset.mem_insert, List.mem_cons]
      exact or_congr_right (ha k)
    have hnested := runs_of_included hs he hloc (mt (ha _).1 hkey) (ihnested rfl hopened)
    have hrun := hnested.trans (ih rfl ha)
    simpa only [List.append_assoc, List.cons_append, List.nil_append] using hrun

/-- What one step can do: close the innermost file, or take over its next element, which may open a
file that is not open yet. -/
theorem step_cases {s s' : Reading} (h : s.step lib = some s') :
    (∃ path outer, s.chain = ⟨path, []⟩ :: outer ∧
        s' = { s with chain := outer, active := s.active.erase (Path.key lib.workDir path) }) ∨
      ∃ path e rest outer, s.chain = ⟨path, e :: rest⟩ :: outer ∧
        ((s'.chain = ⟨path, rest⟩ :: outer ∧ s'.active = s.active) ∨
          ∃ found lines, lib.load? found = some lines ∧
            Path.key lib.workDir found ∉ s.active ∧
            s' = (s.take path e rest outer).enter lib found lines) := by
  cases hs : s.chain with
  | nil =>
    rw [step, hs] at h
    cases h
  | cons f outer =>
    obtain ⟨path, es⟩ := f
    cases es with
    | nil =>
      rw [step_close hs] at h
      exact .inl ⟨path, outer, rfl, (Option.some.inj h).symm⟩
    | cons e rest =>
      refine .inr ⟨path, e, rest, outer, rfl, ?_⟩
      by_cases he : ∃ name, e.stmt = .includeFile name
      · obtain ⟨name, he⟩ := he
        cases hloc : lib.locate path name with
        | error tried =>
          rw [step_missing hs he hloc] at h
          exact .inl (Option.some.inj h ▸ ⟨rfl, rfl⟩)
        | ok place =>
          obtain ⟨found, lines⟩ := place
          rw [step_include hs he hloc] at h
          split at h
          · exact .inl (Option.some.inj h ▸ ⟨rfl, rfl⟩)
          · rename_i hkey
            exact .inr ⟨found, lines, Library.load?_of_locate hloc, hkey, (Option.some.inj h).symm⟩
      · rw [step_other hs fun name hname => he ⟨name, hname⟩] at h
        exact .inl (Option.some.inj h ▸ ⟨rfl, rfl⟩)

/-- The files that are open can be loaded, no two of them are the same, and their keys are those
that are marked. -/
structure Chained (lib : Library) (s : Reading) : Prop where
  loads : ∀ f ∈ s.chain, ∃ lines, lib.load? f.path = some lines
  nodup : (s.keys lib).Nodup
  active : s.active = (s.keys lib).toFinset

theorem Chained.step {s s' : Reading} (h : Chained lib s) (hstep : s.step lib = some s') :
    Chained lib s' := by
  obtain ⟨path, outer, hs, rfl⟩ | ⟨path, e, rest, outer, hs, ⟨hchain, hactive⟩ |
    ⟨found, lines, hload, hkey, rfl⟩⟩ := step_cases hstep
  · have hkeys : s.keys lib =
        Path.key lib.workDir path :: outer.map fun f => Path.key lib.workDir f.path := by
      rw [keys, hs]
      rfl
    have hnodup := h.nodup
    have hactive := h.active
    rw [hkeys] at hnodup hactive
    refine ⟨fun f hf => h.loads f ?_, (List.nodup_cons.1 hnodup).2, ?_⟩
    · rw [hs]
      exact List.mem_cons_of_mem _ hf
    · dsimp only
      rw [hactive, List.toFinset_cons, Finset.erase_insert]
      · rfl
      · rw [List.mem_toFinset]
        exact (List.nodup_cons.1 hnodup).1
  · have hkeys : s'.keys lib = s.keys lib := by
      rw [keys, hchain, keys, hs]
      rfl
    refine ⟨fun f hf => ?_, hkeys ▸ h.nodup, by rw [hactive, hkeys, h.active]⟩
    rw [hchain] at hf
    rcases List.mem_cons.1 hf with rfl | hf
    · exact h.loads ⟨path, e :: rest⟩ (hs ▸ List.mem_cons_self)
    · exact h.loads f (hs ▸ List.mem_cons_of_mem _ hf)
  · have hkeys : ((s.take path e rest outer).enter lib found lines).keys lib =
        Path.key lib.workDir found :: s.keys lib := by
      rw [keys, keys, hs]
      rfl
    refine ⟨fun f hf => ?_, ?_, ?_⟩
    · rcases List.mem_cons.1 hf with rfl | hf
      · exact ⟨lines, hload⟩
      · rcases List.mem_cons.1 hf with rfl | hf
        · exact h.loads ⟨path, e :: rest⟩ (hs ▸ List.mem_cons_self)
        · exact h.loads f (hs ▸ List.mem_cons_of_mem _ hf)
    · rw [hkeys, List.nodup_cons]
      rw [h.active, List.mem_toFinset] at hkey
      exact ⟨hkey, h.nodup⟩
    · rw [hkeys, List.toFinset_cons, ← h.active]
      rfl

theorem Chained.after {s : Reading} (h : Chained lib s) (n : Nat) :
    Chained lib (s.after lib n) := by
  induction n with
  | zero => exact h
  | succ n ih =>
    rw [Reading.after]
    cases hstep : (s.after lib n).step lib with
    | none => exact ih
    | some s' => exact ih.step hstep

/-- Every file that is opened is closed again, and the marks are then as they were without it. -/
theorem Chained.closes {s : Reading} (h : Chained lib s) (hs : s.chain = f :: outer)
    (hkeys : ∀ path lines, lib.load? path = some lines → Path.key lib.workDir path ∈ lib.keys) :
    ∃ s', Runs lib outer.length s s' ∧ s'.chain = outer ∧
      s'.active = s.active.erase (Path.key lib.workDir f.path) := by
  obtain ⟨path, es⟩ := f
  have hfresh : Fresh lib (lib.keys.filter (· ∉ s.keys lib)) (· ∈ s.keys lib) := by
    intro path lines hload
    rw [List.mem_filter, decide_eq_true_eq]
    exact and_iff_right (hkeys path lines hload)
  have hread := runs_of_expands (follow_expands hfresh path es) hs fun k => by
    rw [h.active, List.mem_toFinset]
  refine ⟨_, hread.trans (Runs.of_step (Nat.lt_succ_self _) (step_close rfl)), rfl, rfl⟩

/-- Between the step that opens a file and the one that closes it the file is open, and then the
marks are as they were before. -/
theorem Chained.balanced {s : Reading} (h : Chained lib s)
    (hkeys : ∀ path lines, lib.load? path = some lines → Path.key lib.workDir path ∈ lib.keys)
    (hopened : (s.after lib 1).chain.length = s.chain.length + 1) :
    ∃ m > 1, (s.after lib m).chain = (s.after lib 1).chain.tail ∧
      (s.after lib m).active = s.active ∧
      ∀ k > 0, k < m → (s.after lib m).chain.length < (s.after lib k).chain.length := by
  cases hstep : s.step lib with
  | none =>
    have hsame : s.after lib 1 = s := by
      rw [Reading.after, Reading.after, hstep]
      rfl
    rw [hsame] at hopened
    exact (Nat.succ_ne_self _ hopened.symm).elim
  | some s' =>
    have hs' := h.step hstep
    rw [after_one hstep] at hopened ⊢
    obtain ⟨path, outer, hs, rfl⟩ | ⟨path, e, rest, outer, hs, ⟨hchain, -⟩ |
      ⟨found, lines, -, hkey, rfl⟩⟩ := step_cases hstep
    · simp only [hs, List.length_cons] at hopened
      omega
    · rw [hs, hchain] at hopened
      exact (Nat.succ_ne_self _ hopened.symm).elim
    · obtain ⟨s'', ⟨n, hn, hopen⟩, hchain, hactive⟩ := hs'.closes rfl hkeys
      have hafter (k : Nat) : s.after lib (1 + k) =
          ((s.take path e rest outer).enter lib found lines).after lib k := by
        rw [after_add, after_one hstep]
      have hpos : n ≠ 0 := by
        rintro rfl
        rw [← hn] at hchain
        exact Nat.succ_ne_self _ (congrArg List.length hchain)
      refine ⟨1 + n, by omega, ?_, ?_, fun k hk hkm => ?_⟩
      · rw [hafter, hn, hchain]
        rfl
      · rw [hafter, hn, hactive]
        exact Finset.erase_insert hkey
      · obtain ⟨j, rfl⟩ := Nat.exists_eq_add_of_le hk
        rw [hafter, hafter, hn, hchain]
        exact hopen j (Nat.lt_of_add_lt_add_left hkm)

theorem ends_of_expands {elements : List Element}
    (h : Expands lib [Path.key lib.workDir path] path (elementsOfLines path lines).1 elements ds) :
    ∃ n, (enter lib {} path lines).after lib n =
      ⟨[], ∅, elements, (elementsOfLines path lines).2 ++ ds⟩ := by
  have hmarked (k : String) : k ∈ (enter lib {} path lines).active ↔
      k ∈ [Path.key lib.workDir path] := by
    rw [enter, Finset.mem_insert, List.mem_singleton]
    exact or_iff_left (Finset.notMem_empty k)
  obtain ⟨n, hn, -⟩ := (runs_of_expands h rfl hmarked).trans
    (Runs.of_step (Nat.lt_succ_self _) (step_close rfl))
  refine ⟨n, hn.trans ?_⟩
  simp only [enter, Finset.erase_insert (Finset.notMem_empty _), List.nil_append]

end Reading

/-- The names of files that can be loaded: those in their shortest form. -/
def loadable (files : List (String × List String)) : List String :=
  (files.map Prod.fst).dedup.filter fun name => Path.clean name = name

section
variable {workDir : String} {files : List (String × List String)}

theorem Library.clean_mem_loadable (h : (ofFiles workDir files).load? path = some lines) :
    Path.clean path ∈ loadable files := by
  rw [loadable, List.mem_filter, List.mem_dedup, decide_eq_true_eq]
  refine ⟨?_, Path.clean_clean path⟩
  have hmem := List.lookup_eq_some_iff.1 h
  obtain ⟨before, after, hfiles, -⟩ := hmem
  rw [hfiles, List.map_append, List.map_cons]
  exact List.mem_append_right _ List.mem_cons_self

theorem Library.key_mem_keys (hwork : workDir ≠ "") (path : String) (lines : List String)
    (h : (ofFiles workDir files).load? path = some lines) :
    Path.key workDir path ∈ (ofFiles workDir files).keys := by
  have hmem := clean_mem_loadable h
  rw [loadable, List.mem_filter, List.mem_dedup] at hmem
  obtain ⟨f, hf, hname⟩ := List.mem_map.1 hmem.1
  rw [← Path.key_clean hwork, ← hname]
  exact List.mem_map_of_mem hf

theorem Reading.Chained.length_le {s : Reading} (hwork : workDir ≠ "")
    (h : Chained (.ofFiles workDir files) s) : s.chain.length ≤ (loadable files).length := by
  have hsub : s.keys (.ofFiles workDir files) ⊆ (loadable files).map (Path.key workDir) := by
    intro k hk
    obtain ⟨f, hf, rfl⟩ := List.mem_map.1 hk
    obtain ⟨lines, hload⟩ := h.loads f hf
    change Path.key workDir f.path ∈ _
    rw [← Path.key_clean hwork]
    exact List.mem_map_of_mem (Library.clean_mem_loadable hload)
  have hlength := (List.subperm_of_subset h.nodup hsub).length_le
  rwa [keys, List.length_map, List.length_map] at hlength

theorem Reading.chained_enter (h : lib.load? path = some lines) :
    Chained lib (enter lib {} path lines) := by
  refine ⟨fun f hf => ?_, List.nodup_singleton _, rfl⟩
  rw [List.mem_singleton.1 hf]
  exact ⟨lines, h⟩

/-- A file whose key is marked is not opened, and this is the only reason to call it circular. -/
theorem Reading.circular_iff {s : Reading} (hs : s.chain = ⟨path, e :: rest⟩ :: outer)
    (he : e.stmt = .includeFile name) :
    s.after lib 1 = (s.take path e rest outer).report (.includeCycle name) e.loc ↔
      ∃ found lines, lib.locate path name = .ok (found, lines) ∧
        Path.key lib.workDir found ∈ s.active := by
  cases hloc : lib.locate path name with
  | error tried =>
    rw [after_one (step_missing hs he hloc)]
    constructor
    · intro h
      have hlast := congrArg diagnostics h
      cases List.append_cancel_left hlast
    · rintro ⟨found, lines, hok, -⟩
      cases hok
  | ok place =>
    obtain ⟨found, lines⟩ := place
    rw [after_one (step_include hs he hloc)]
    constructor
    · intro h
      refine ⟨found, lines, rfl, ?_⟩
      by_contra hkey
      rw [if_neg hkey] at h
      have hlength := congrArg (fun s => s.chain.length) h
      exact Nat.succ_ne_self _ hlength
    · rintro ⟨_, _, hok, hkey⟩
      cases hok
      rw [if_pos hkey]

theorem elementsOfFile_eq {lib : Library} (h : lib.load? path = some lines) :
    elementsOfFile lib path =
      ((follow lib (without lib.keys (Path.key lib.workDir path)) path
          (elementsOfLines path lines).1).1,
        (elementsOfLines path lines).2 ++
          (follow lib (without lib.keys (Path.key lib.workDir path)) path
            (elementsOfLines path lines).1).2) := by
  unfold elementsOfFile
  rw [h]

end

theorem fresh_root {workDir : String} (hwork : workDir ≠ "")
    (files : List (String × List String)) (root : String) :
    Fresh (.ofFiles workDir files)
      (without (Library.ofFiles workDir files).keys (Path.key workDir root))
      (· ∈ [Path.key workDir root]) := by
  intro path lines h
  dsimp only
  rw [without, List.mem_filter, decide_eq_true_eq, List.mem_singleton]
  exact and_iff_right (Library.key_mem_keys hwork path lines h)

/-- Reading a file with all that it includes ends, and gives the elements of the file with those of
each included file behind the element that includes it. At every moment the files that are open are
pairwise distinct, their keys are those that are marked, and there are no more of them than files
that can be loaded. When a file is closed, the marks are as they were before it was opened. An
include is reported as circular exactly if it is found and its key is that of an open file. -/
theorem elementsOfFile_expands {workDir : String} (hwork : workDir ≠ "")
    (files : List (String × List String)) (root : String) :
    let lib : Library := .ofFiles workDir files
    (lib.load? root = none →
      elementsOfFile lib root = ([], [⟨.fileNotFound root, ⟨root, 0⟩⟩])) ∧
    ∀ lines, lib.load? root = some lines →
      let moment := (Reading.enter lib {} root lines).after lib
      (∃ n, moment n = ⟨[], ∅, (elementsOfFile lib root).1, (elementsOfFile lib root).2⟩) ∧
      (∀ n, ((moment n).keys lib).Nodup ∧ (moment n).active = ((moment n).keys lib).toFinset ∧
        (moment n).chain.length ≤ (loadable files).length) ∧
      (∀ n, (moment (n + 1)).chain.length = (moment n).chain.length + 1 →
        ∃ m, n + 1 < m ∧ (moment m).chain = (moment (n + 1)).chain.tail ∧
          (moment m).active = (moment n).active ∧
          ∀ k, n < k → k < m → (moment m).chain.length < (moment k).chain.length) ∧
      (∀ n path e rest outer name, (moment n).chain = ⟨path, e :: rest⟩ :: outer →
        e.stmt = .includeFile name →
        (moment (n + 1) = ((moment n).take path e rest outer).report (.includeCycle name) e.loc ↔
          ∃ found lines, lib.locate path name = .ok (found, lines) ∧
            Path.key workDir found ∈ (moment n).keys lib)) ∧
      ∃ out ds, Expands lib [Path.key workDir root] root (elementsOfLines root lines).1 out ds ∧
        elementsOfFile lib root = (out, (elementsOfLines root lines).2 ++ ds) := by
  intro lib
  constructor
  · intro h
    unfold elementsOfFile
    rw [h]
  intro lines hload moment
  have hkeys (path : String) (lines : List String) (h : lib.load? path = some lines) :
      Path.key workDir path ∈ lib.keys := Library.key_mem_keys hwork path lines h
  have hchained (n : Nat) : Reading.Chained lib (moment n) := (Reading.chained_enter hload).after n
  have hadd (n k : Nat) : moment (n + k) = (moment n).after lib k := Reading.after_add lib _ n k
  have hexpands := follow_expands (fresh_root hwork files root) root (elementsOfLines root lines).1
  have hresult := elementsOfFile_eq hload
  refine ⟨?_, fun n => ⟨(hchained n).nodup, (hchained n).active, (hchained n).length_le hwork⟩,
    fun n hopened => ?_, fun n path e rest outer name hs he => ?_, _, _, hexpands, hresult⟩
  · rw [hresult]
    exact Reading.ends_of_expands hexpands
  · rw [hadd] at hopened
    obtain ⟨m, hm, hchain, hactive, hopen⟩ := (hchained n).balanced hkeys hopened
    refine ⟨n + m, by omega, ?_, ?_, fun k hk hkm => ?_⟩
    · rw [hadd, hadd, hchain]
    · rw [hadd, hactive]
    · obtain ⟨j, rfl⟩ := Nat.exists_eq_add_of_le (Nat.le_of_lt hk)
      rw [hadd, hadd]
      exact hopen j (by omega) (by omega)
  · rw [hadd, Reading.circular_iff hs he, (hchained n).active]
    simp only [List.mem_toFinset]
    rfl

def mutualFiles : List (String × List String) :=
  [("a", ["include \"b\"", "include \"c\""]), ("b", ["include \"x/../a\""])]

theorem elementsOfFile_mutualFiles :
    elementsOfFile (.ofFiles "/w" mutualFiles) "./a" =
      ([⟨⟨"./a", 1⟩, .includeFile "b"⟩, ⟨⟨"b", 1⟩, .includeFile "x/../a"⟩,
        ⟨⟨"./a", 2⟩, .includeFile "c"⟩],
        [⟨.includeCycle "x/../a", ⟨"b", 1⟩⟩, ⟨.includeNotFound "c" "c", ⟨"./a", 2⟩⟩]) := by
  have hload : (Library.ofFiles "/w" mutualFiles).load? "./a" =
      some ["include \"b\"", "include \"c\""] := by decide +kernel
  have hb : (Library.ofFiles "/w" mutualFiles).locate "./a" "b" =
      .ok ("b", ["include \"x/../a\""]) := by decide +kernel
  have ha : (Library.ofFiles "/w" mutualFiles).locate "b" "x/../a" =
      .ok ("a", ["include \"b\"", "include \"c\""]) := by decide +kernel
  have hc : (Library.ofFiles "/w" mutualFiles).locate "./a" "c" = .error "c" := by decide +kernel
  have hreadA : elementsOfLines "./a" ["include \"b\"", "include \"c\""] =
      ([⟨⟨"./a", 1⟩, .includeFile "b"⟩, ⟨⟨"./a", 2⟩, .includeFile "c"⟩], []) := by cbv
  have hreadB : elementsOfLines "b" ["include \"x/../a\""] =
      ([⟨⟨"b", 1⟩, .includeFile "x/../a"⟩], []) := by cbv
  rw [elementsOfFile, hload]
  dsimp only
  rw [hreadA, follow_included rfl hb (by decide +kernel), hreadB,
    follow_circular rfl ha (by decide +kernel), follow_missing rfl hc, follow, follow]
  rfl

theorem elementsOfFile_expands_mutualFiles :
    (Library.ofFiles "/w" mutualFiles).load? "./a" =
        some ["include \"b\"", "include \"c\""] ∧
      elementsOfFile (.ofFiles "/w" mutualFiles) "./a" =
        ([⟨⟨"./a", 1⟩, .includeFile "b"⟩, ⟨⟨"b", 1⟩, .includeFile "x/../a"⟩,
          ⟨⟨"./a", 2⟩, .includeFile "c"⟩],
          [⟨.includeCycle "x/../a", ⟨"b", 1⟩⟩, ⟨.includeNotFound "c" "c", ⟨"./a", 2⟩⟩]) ∧
      ∀ n, ((Reading.enter (.ofFiles "/w" mutualFiles) {} "./a"
        ["include \"b\"", "include \"c\""]).after
          (.ofFiles "/w" mutualFiles) n).chain.length ≤ 2 := by
  have hload : (Library.ofFiles "/w" mutualFiles).load? "./a" =
      some ["include \"b\"", "include \"c\""] := by decide +kernel
  have hcount : (loadable mutualFiles).length = 2 := by decide +kernel
  have hwork : "/w" ≠ "" := by decide
  obtain ⟨-, hmoments, -⟩ := (elementsOfFile_expands hwork mutualFiles "./a").2 _ hload
  exact ⟨hload, elementsOfFile_mutualFiles, fun n => hcount ▸ (hmoments n).2.2⟩

end Z80Asm.Source
