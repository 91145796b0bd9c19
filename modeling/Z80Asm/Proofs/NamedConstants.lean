import Z80Asm.Proofs.Inclusion
import Z80Asm.Proofs.NamedAssembly
import Z80Asm.Proofs.NamedLines

/-! Naming a constant does not change a program. With a new name in place of an expression that is
known when it is read, and a definition of the name at the very top, the same image is assembled. -/

namespace Z80Asm
set_option autoImplicit true
namespace Source

/-- The elements of the lines of a file, and what is reported on them, of which the first has the
number `k + 1`. -/
def elementsFrom (file : String) (k : Nat) (lines : List String) :
    List (List Element × List Diagnostic) :=
  (lines.zipIdx k).map fun (raw, i) => elementsOfLine ⟨file, Int.ofNat (i + 1)⟩ raw

theorem elementsOfLines_eq (file : String) (lines : List String) :
    elementsOfLines file lines =
      (((elementsFrom file 0 lines).map Prod.fst).flatten,
        ((elementsFrom file 0 lines).map Prod.snd).flatten) := rfl

theorem elementsFrom_cons (file : String) (k : Nat) (raw : String) (lines : List String) :
    elementsFrom file k (raw :: lines) =
      elementsOfLine ⟨file, Int.ofNat (k + 1)⟩ raw :: elementsFrom file (k + 1) lines := by
  rw [elementsFrom, List.zipIdx_cons, List.map_cons]
  rfl

/-- Of two readings of a program, the second has the name `x` for the value `d`. -/
def Rendered (x : String) (d : Datum) (r r' : List Element × List Diagnostic) : Prop :=
  r.2 = [] → r'.2 = [] ∧ List.Forall₂ (Element.Renders x d) r.1 r'.1

theorem Matching.rendered {r r' : Checked (List Statement)} (h : Matching x d r r')
    (loc loc' : Location) :
    Rendered x d (r.value.map (⟨loc, ·⟩), r.problems.map (⟨·, loc⟩))
      (r'.value.map (⟨loc', ·⟩), r'.problems.map (⟨·, loc'⟩)) := by
  intro hq
  obtain ⟨hq', hstmts⟩ := h (List.map_eq_nil_iff.1 hq)
  refine ⟨List.map_eq_nil_iff.2 hq', ?_⟩
  rw [List.forall₂_map_left_iff, List.forall₂_map_right_iff]
  exact hstmts

theorem mem_follow (he : e ∈ es) : e ∈ (follow lib fresh source es).1 := by
  fun_induction follow lib fresh source es with
  | case1 => exact he
  | case2 fresh source first es rest ds hrest _ _ _ _ ih =>
    rw [hrest] at ih
    rcases List.mem_cons.1 he with rfl | he
    · exact List.mem_cons_self
    · exact List.mem_cons_of_mem _ (ih he)
  | case3 =>
    rename_i rest ds hrest _ _ _ _ _ _ _ _ _ _ inner ds' hinner ih ih'
    rw [hrest] at ih
    rcases List.mem_cons.1 he with rfl | he
    · exact List.mem_cons_self
    · exact List.mem_cons_of_mem _ (List.mem_append_right _ (ih he))
  | case4 =>
    rename_i rest ds hrest _ _ _ _ _ _ _ ih
    rw [hrest] at ih
    rcases List.mem_cons.1 he with rfl | he
    · exact List.mem_cons_self
    · exact List.mem_cons_of_mem _ (ih he)
  | case5 =>
    rename_i rest ds hrest _ ih
    rw [hrest] at ih
    rcases List.mem_cons.1 he with rfl | he
    · exact List.mem_cons_self
    · exact List.mem_cons_of_mem _ (ih he)

/-- The files of the second library are those of the first one, with the name in the place on some
of their lines. The main file also has the definition of the name on top. -/
structure Site.NamedFiles (s : Site) (src x root : String) (lib lib' : Library) : Prop where
  workDir : lib'.workDir = lib.workDir
  keys : lib'.keys = lib.keys
  files : ∀ path, Option.Rel
    (fun lines lines' => ∃ named, List.Forall₂ (s.NamedLine src x) lines named ∧
      lines' = if Path.key lib.workDir path = Path.key lib.workDir root then
        definition x src :: named else named)
    (lib.load? path) (lib'.load? path)

/-- Two programs as they are read, from a text or from a file with all that it includes. In the
second one the name stands in the place on some lines, and is defined at the very top. -/
inductive Site.NamedProgram (s : Site) (src x : String) :
    List Element × List Diagnostic → List Element × List Diagnostic → Prop where
  | text (file : String) {lines lines' : List String} :
      List.Forall₂ (s.NamedLine src x) lines lines' →
      NamedProgram s src x (elementsOfLines file lines)
        (elementsOfLines file (definition x src :: lines'))
  | files {root : String} {lib lib' : Library} : s.NamedFiles src x root lib lib' →
      NamedProgram s src x (elementsOfFile lib root) (elementsOfFile lib' root)

theorem includes_iff (h : Element.Renders x d e e') :
    e'.stmt = .includeFile name ↔ e.stmt = .includeFile name := by
  obtain ⟨loc, stmt⟩ := e
  obtain ⟨loc', stmt'⟩ := e'
  cases h with
  | bytes =>
    constructor
    · intro h
      cases h
    · intro h
      cases h
  | same => exact Iff.rfl

theorem Site.NamedFiles.locate {s : Site} (h : s.NamedFiles src x root lib lib')
    (hloc : lib.locate source name = .ok (found, lines)) :
    ∃ named, List.Forall₂ (s.NamedLine src x) lines named ∧
      lib'.locate source name = .ok (found,
        if Path.key lib.workDir found = Path.key lib.workDir root then
          definition x src :: named else named) := by
  have hnear := h.files (Path.resolve source name)
  have hpath := h.files name
  unfold Library.locate at hloc ⊢
  dsimp only at hloc ⊢
  generalize lib.load? (Path.resolve source name) = r at hloc hnear
  generalize lib'.load? (Path.resolve source name) = r' at hnear ⊢
  cases hnear with
  | some hlines =>
    cases hloc
    obtain ⟨named, hnamed, rfl⟩ := hlines
    exact ⟨named, hnamed, rfl⟩
  | none =>
    dsimp only at hloc ⊢
    generalize lib.load? name = r at hloc hpath
    generalize lib'.load? name = r' at hpath ⊢
    cases hpath with
    | some hlines =>
      cases hloc
      obtain ⟨named, hnamed, rfl⟩ := hlines
      exact ⟨named, hnamed, rfl⟩
    | none => cases hloc

section
variable {s : Site} {mnemonic src x : String} {d : Datum} (hs : s.Holds mnemonic src)
  (htakes : s.Takes mnemonic src) (hsrc : Folds src d) (hd : d ≠ .text "") (hx : NewName x)
include hs htakes hsrc hd hx

theorem elementsFrom_rendered (h : List.Forall₂ (s.NamedLine src x) lines lines') (file : String)
    (k k' : Nat)
    (hnew : ∀ e ∈ ((elementsFrom file k lines).map Prod.fst).flatten, x ∉ e.stmt.names) :
    Rendered x d
      (((elementsFrom file k lines).map Prod.fst).flatten,
        ((elementsFrom file k lines).map Prod.snd).flatten)
      (((elementsFrom file k' lines').map Prod.fst).flatten,
        ((elementsFrom file k' lines').map Prod.snd).flatten) := by
  induction h generalizing k k' with
  | nil => exact fun _ => ⟨rfl, .nil⟩
  | @cons raw raw' lines lines' hline _ ih =>
    rw [elementsFrom_cons, List.map_cons, List.flatten_cons] at hnew
    obtain ⟨hhere, hrest⟩ := List.forall_mem_append.1 hnew
    intro hq
    rw [elementsFrom_cons, List.map_cons, List.flatten_cons] at hq
    obtain ⟨hq₁, hq₂⟩ := List.append_eq_nil_iff.1 hq
    have hmatching := hline.matching hs htakes hsrc hx hd fun stmt hstmt =>
      hhere ⟨_, stmt⟩ (List.mem_map_of_mem hstmt)
    obtain ⟨hq₁', hes₁⟩ := hmatching.rendered ⟨file, Int.ofNat (k + 1)⟩
      ⟨file, Int.ofNat (k' + 1)⟩ hq₁
    obtain ⟨hq₂', hes₂⟩ := ih (k + 1) (k' + 1) hrest hq₂
    rw [elementsFrom_cons, elementsFrom_cons]
    exact ⟨List.append_eq_nil_iff.2 ⟨hq₁', hq₂'⟩, List.rel_append hes₁ hes₂⟩

theorem elementsOfLines_rendered (h : List.Forall₂ (s.NamedLine src x) lines lines')
    (file : String) (hnew : ∀ e ∈ (elementsOfLines file lines).1, x ∉ e.stmt.names) :
    Rendered x d (elementsOfLines file lines) (elementsOfLines file lines') :=
  elementsFrom_rendered hs htakes hsrc hd hx h file 0 0 hnew

theorem follow_rendered (hlib : s.NamedFiles src x root lib lib')
    (hroot : Path.key lib.workDir root ∉ fresh) (hes : List.Forall₂ (Element.Renders x d) es es')
    (hnew : ∀ e ∈ (follow lib fresh source es).1, x ∉ e.stmt.names) :
    Rendered x d (follow lib fresh source es) (follow lib' fresh source es') := by
  induction fresh, source, es using follow.induct lib generalizing es' with
  | case1 fresh source =>
    cases hes
    rw [follow, follow]
    exact fun _ => ⟨rfl, .nil⟩
  | case2 fresh source e es _ _ _ name hstmt tried hloc ih =>
    rw [follow_missing hstmt hloc]
    exact fun hq => by cases hq
  | case3 =>
    rename_i fresh source e es _ _ _ name hstmt found lines hloc key hkey inner ds hlines
      _ _ _ ih ih'
    cases hes with
    | @cons _ e' _ es' he hes =>
      rw [follow_included hstmt hloc hkey, hlines] at hnew ⊢
      obtain ⟨hhere, hnew⟩ := List.forall_mem_cons.1 hnew
      obtain ⟨hinner, hbehind⟩ := List.forall_mem_append.1 hnew
      -- the included file is another one than the main file, which is being read
      have hother : Path.key lib.workDir found ≠ Path.key lib.workDir root := fun heq =>
        hroot (heq ▸ hkey)
      obtain ⟨named, hnamed, hloc'⟩ := hlib.locate hloc
      rw [if_neg hother] at hloc'
      have hkey' : Path.key lib'.workDir found ∈ fresh := hlib.workDir ▸ hkey
      have hfresh : Path.key lib.workDir root ∉ without fresh (Path.key lib.workDir found) :=
        fun hmem => hroot (List.mem_of_mem_filter hmem)
      have hfile := elementsOfLines_rendered hs htakes hsrc hd hx hnamed found fun a ha =>
        hinner a (mem_follow (hlines ▸ ha))
      rw [hlines] at hfile
      rw [follow_included ((includes_iff he).2 hstmt) hloc' hkey', hlib.workDir]
      intro hq
      obtain ⟨hq, hqbehind⟩ := List.append_eq_nil_iff.1 hq
      obtain ⟨hqlines, hqinner⟩ := List.append_eq_nil_iff.1 hq
      obtain ⟨hqlines', hreadlines⟩ := hfile hqlines
      obtain ⟨hqinner', hreadinner⟩ := ih' hfresh hreadlines hinner hqinner
      obtain ⟨hqbehind', hreadbehind⟩ := ih hroot hes hbehind hqbehind
      refine ⟨?_, .cons he (List.rel_append hreadinner hreadbehind)⟩
      rw [hqlines', hqinner', hqbehind']
      rfl
  | case4 =>
    rename_i fresh source e es _ _ _ name hstmt found lines hloc key hkey ih
    rw [follow_circular hstmt hloc hkey]
    exact fun hq => by cases hq
  | case5 fresh source e es _ _ _ hstmt ih =>
    cases hes with
    | @cons _ e' _ es' he hes =>
      rw [follow_other hstmt] at hnew ⊢
      rw [follow_other fun name hname => hstmt name ((includes_iff he).1 hname)]
      intro hq
      obtain ⟨hq', hrest⟩ := ih hroot hes (fun a ha => hnew a (List.mem_cons_of_mem e ha)) hq
      exact ⟨hq', .cons he hrest⟩

/-- The elements of the main file: the definition comes first. -/
theorem elementsOfLines_definition (h : List.Forall₂ (s.NamedLine src x) lines lines')
    (file : String) (hread : (elementsOfLines file lines).2 = [])
    (hnew : ∀ e ∈ (elementsOfLines file lines).1, x ∉ e.stmt.names) :
    (elementsOfLines file (definition x src :: lines')).2 = [] ∧
      ∃ es, (elementsOfLines file (definition x src :: lines')).1 =
          [⟨⟨file, 1⟩, .label { name := x }⟩, ⟨⟨file, 1⟩, .equ (.ofDatum d)⟩] ++ es ∧
        List.Forall₂ (Element.Renders x d) (elementsOfLines file lines).1 es := by
  obtain ⟨hvalue, hproblems⟩ := readLineText_definition hs htakes hsrc hx
  obtain ⟨hrest, hes⟩ := elementsFrom_rendered hs htakes hsrc hd hx h file 0 1 hnew hread
  have hfirst : elementsOfLine ⟨file, 1⟩ (definition x src) =
      ([⟨⟨file, 1⟩, .label { name := x }⟩, ⟨⟨file, 1⟩, .equ (.ofDatum d)⟩], []) := by
    unfold elementsOfLine
    dsimp only
    rw [hvalue, hproblems]
    rfl
  have hcons : elementsFrom file 0 (definition x src :: lines') =
      elementsOfLine ⟨file, 1⟩ (definition x src) :: elementsFrom file 1 lines' :=
    elementsFrom_cons file 0 _ _
  rw [elementsOfLines_eq, hcons, hfirst]
  exact ⟨hrest, _, rfl, hes⟩

/-- The second program is read as the definition and the elements of the first one under the
name. -/
theorem Site.NamedProgram.rendered (h : s.NamedProgram src x old new) (hread : old.2 = [])
    (hnew : ∀ e ∈ old.1, x ∉ e.stmt.names) :
    new.2 = [] ∧ ∃ loc es, new.1 =
        [⟨loc, .label { name := x }⟩, ⟨loc, .equ (.ofDatum d)⟩] ++ es ∧
      List.Forall₂ (Element.Renders x d) old.1 es := by
  cases h with
  | text file h =>
    obtain ⟨hquiet, es, hes, hrenders⟩ :=
      elementsOfLines_definition hs htakes hsrc hd hx h file hread hnew
    exact ⟨hquiet, _, es, hes, hrenders⟩
  | @files root lib lib' h =>
    have hfiles := h.files root
    cases hload : lib.load? root with
    | none =>
      rw [elementsOfFile, hload] at hread
      cases hread
    | some lines =>
      rw [hload] at hfiles
      cases hload' : lib'.load? root with
      | none =>
        rw [hload'] at hfiles
        cases hfiles
      | some lines' =>
        rw [hload'] at hfiles
        cases hfiles with
        | some hlines =>
          obtain ⟨named, hnamed, heq⟩ := hlines
          rw [if_pos rfl] at heq
          subst heq
          rw [elementsOfFile_eq hload] at hread hnew ⊢
          obtain ⟨hread₁, hread₂⟩ := List.append_eq_nil_iff.1 hread
          obtain ⟨hquiet₁, es, hes, hrenders⟩ :=
            elementsOfLines_definition hs htakes hsrc hd hx hnamed root hread₁
              fun e he => hnew e (mem_follow he)
          have hroot : Path.key lib.workDir root ∉
              without lib.keys (Path.key lib.workDir root) := by
            rw [without, List.mem_filter, decide_eq_true_eq]
            exact fun hmem => hmem.2 rfl
          obtain ⟨hquiet₂, hfollowed⟩ :=
            follow_rendered hs htakes hsrc hd hx h hroot hrenders hnew hread₂
          rw [elementsOfFile_eq hload', h.workDir, h.keys, hes, List.cons_append,
            List.singleton_append, follow_other (fun _ he => by cases he),
            follow_other (fun _ he => by cases he)]
          exact ⟨List.append_eq_nil_iff.2 ⟨hquiet₁, hquiet₂⟩, _, _, rfl, hfollowed⟩

end

end Source

/-- A constant may be named. Where an expression without names stands as an operand of data, as the
fill of reserved space, or as the byte, word or distance of an instruction, a new name may stand
instead and be defined as the expression at the very top: the program is again assembled without
problems, to the same image at the same origin, and every other symbol keeps its value. -/
theorem Assembly.named_constant {s : Source.Site} {mnemonic src x : String} {d : Datum}
    (hs : s.Holds mnemonic src) (htakes : s.Takes mnemonic src) (hsrc : Source.Folds src d)
    (hd : d ≠ .text "") (hx : Source.NewName x) {old new : List Element × List Diagnostic}
    (h : s.NamedProgram src x old new) (hread : old.2 = []) {passes : Int}
    (hq : (assemble old.1 passes).diagnostics = [])
    (hnew : ∀ e ∈ old.1, x ∉ e.stmt.names) :
    let a := assemble old.1 passes
    let a' := assemble new.1 passes
    new.2 = [] ∧ a'.diagnostics = [] ∧ a'.image = a.image ∧ a'.origin = a.origin ∧
      a'.table.names = x :: a.table.names ∧ a'.table.get? x = some (.ofDatum d) ∧
      ∀ q, q ≠ x → a'.table.get? q = a.table.get? q := by
  have hhere : x ≠ "$" := by
    rintro rfl
    exact absurd hx.name (by decide)
  obtain ⟨hquiet, loc, es, hes, hrenders⟩ := h.rendered hs htakes hsrc hd hx hread hnew
  obtain ⟨hdiagnostics, himage, horigin, htable⟩ :=
    assemble_named (Source.parse_of_isName hx.name) hhere hrenders hq loc loc
  rw [hes]
  exact ⟨hquiet, hdiagnostics, himage, horigin, htable.names, htable.self, htable.get⟩

namespace Assembly

def addressSite : Source.Site := ⟨" ld ".toList, [['a']], ['('], [')'], [], []⟩

theorem around_addressSite : addressSite.Around true :=
  have hleft : addressSite.left = [] ++ '(' :: [] := rfl
  have hright : addressSite.right = [] ++ ')' :: [] := rfl
  .enclosed hleft hright (fun _ hc => by cases hc) fun _ hc => by cases hc

set_option maxRecDepth 10000 in
theorem holds_product : addressSite.Holds "ld" "2*3" :=
  ⟨⟨fun c hc => by cases hc; rfl, fun c hc => by cases hc; rfl⟩, by cbv, by cbv, by cbv⟩

theorem folds_product : Source.Folds "2*3" (.number 6) :=
  ⟨.binary .star (.num 2) (.num 3), by cbv, rfl, rfl⟩

set_option maxRecDepth 10000 in
theorem instructionOn?_product : Source.instructionOn? (addressSite.line "2*3") =
    some (⟨"ld", [.word "a", .address], [0x3A], .word⟩, "2*3") := by decide +kernel

theorem takes_product : addressSite.Takes "ld" "2*3" :=
  .argument around_addressSite (fun _ => by decide +kernel) (by decide +kernel)
    instructionOn?_product (by decide)

set_option maxRecDepth 10000 in
theorem elementsOfLines_product : Source.elementsOfLines "f" [" ld a,(2*3)"] =
    ([⟨⟨"f", 1⟩, .bytes ⟨[.byte 0x3A, .byte 6, .byte 0], 0, 0, false⟩⟩], []) := by
  have hencode : Source.encode ⟨"ld", [.word "a", .address], [0x3A], .word⟩ "2*3" =
      pure [.byte 0x3A, .byte 6, .byte 0] := by cbv
  have hline := Source.elementsOfLine_of_encode instructionOn?_product (by decide +kernel) hencode
    (List.cons_ne_nil _ _) ⟨"f", 1⟩
  have hraw : addressSite.line "2*3" = " ld a,(2*3)" := rfl
  rw [← hraw]
  exact Source.elementsOfLines_of_forall₂ "f" [addressSite.line "2*3"] (.cons hline .nil)

theorem named_constant_product :
    let old := Source.elementsOfLines "f" [" ld a,(2*3)"]
    let new := Source.elementsOfLines "f" ["six equ 2*3", " ld a,(six)"]
    old.2 = [] ∧ (assemble old.1 0).diagnostics = [] ∧ (∀ e ∈ old.1, "six" ∉ e.stmt.names) ∧
      new.2 = [] ∧ (assemble new.1 0).diagnostics = [] ∧
      (assemble new.1 0).image = (assemble old.1 0).image ∧
      (assemble new.1 0).table.get? "six" = some (.number 6) := by
  intro old new
  have hread : old = _ := elementsOfLines_product
  have hq : (assemble old.1 0).diagnostics = [] := by
    rw [hread]
    cbv
  have hnew : ∀ e ∈ old.1, "six" ∉ e.stmt.names := by
    rw [hread]
    exact List.forall_mem_singleton.2 fun hmem => by cases hmem
  have hquiet : old.2 = [] := congrArg Prod.snd hread
  have hx : Source.NewName "six" := ⟨rfl, rfl, by decide +kernel⟩
  have hlines : addressSite.NamedProgram "2*3" "six" old new :=
    .text "f" (.cons (.inr ⟨rfl, rfl⟩) .nil)
  obtain ⟨hnewread, hnewquiet, himage, -, -, hvalue, -⟩ :=
    named_constant holds_product takes_product folds_product (by decide) hx hlines hquiet hq hnew
  exact ⟨hquiet, hq, hnew, hnewread, hnewquiet, himage, hvalue⟩

def dataSite : Source.Site := ⟨" defb ".toList, [], [], [], [], []⟩

/-- With `src` in the place, the line is a program that is assembled without problems. With `x` in
its place and defined as `src`, it is not read without problems, and makes another image. -/
def Misnamed (s : Source.Site) (src x : String) : Prop :=
  let old := Source.elementsOfLines "f" [s.line src]
  let new := Source.elementsOfLines "f" [Source.definition x src, s.line x]
  old.2 = [] ∧ (assemble old.1 0).diagnostics = [] ∧ (∀ e ∈ old.1, x ∉ e.stmt.names) ∧
    new.2 ≠ [] ∧ (assemble new.1 0).image ≠ (assemble old.1 0).image

theorem misnamed_of {s : Source.Site} {src x : String} {t : Template} {es : List Element}
    {ds : List Diagnostic} {bs bs' : List UInt8}
    (hread : Source.elementsOfLines "f" [s.line src] = ([⟨⟨"f", 1⟩, .bytes t⟩], []))
    (hq : (assemble [⟨⟨"f", 1⟩, .bytes t⟩] 0).diagnostics = [])
    (hslots : t.slots.filterMap Slot.operand? = [])
    (hnew : Source.elementsOfLines "f" [Source.definition x src, s.line x] = (es, ds))
    (hds : ds ≠ []) (hbytes : (assemble [⟨⟨"f", 1⟩, .bytes t⟩] 0).image.bytes = bs)
    (hbytes' : (assemble es 0).image.bytes = bs') (hne : bs' ≠ bs) :
    Misnamed s src x := by
  have himage : (assemble es 0).image ≠ (assemble [⟨⟨"f", 1⟩, .bytes t⟩] 0).image := by
    intro hsame
    rw [hsame, hbytes] at hbytes'
    exact hne hbytes'.symm
  unfold Misnamed
  rw [hread, hnew]
  refine ⟨rfl, hq, List.forall_mem_singleton.2 fun hmem => ?_, hds, himage⟩
  change x ∈ [] ++ (t.slots.filterMap Slot.operand?).flatMap Value.mentions at hmem
  rw [hslots] at hmem
  cases hmem

set_option maxRecDepth 10000 in
/-- In front of EQU the mnemonic is taken for a label. -/
theorem misnamed_equ : Misnamed dataSite "5" "equ" := by
  have hread : Source.elementsOfLines "f" [dataSite.line "5"] =
      ([⟨⟨"f", 1⟩, .bytes ⟨[.byte 5], 0, 0, false⟩⟩], []) := by cbv
  have hnew : Source.elementsOfLines "f" [Source.definition "equ" "5", dataSite.line "equ"] =
      ([⟨⟨"f", 1⟩, .label { name := "equ" }⟩, ⟨⟨"f", 1⟩, .equ (.number 5)⟩,
        ⟨⟨"f", 2⟩, .label { name := "defb" }⟩], [⟨.oneOperand "EQU", ⟨"f", 2⟩⟩]) := by cbv
  have hnone : ([] : List UInt8) ≠ [5] := by decide
  exact misnamed_of hread (by cbv) rfl hnew (List.cons_ne_nil _ _) (by cbv) (by cbv) hnone

set_option maxRecDepth 10000 in
theorem elementsOfLines_choice : Source.elementsOfLines "f" [addressSite.line "1?',':0"] =
    ([⟨⟨"f", 1⟩, .bytes ⟨[.byte 0x3A, .byte 0x2C, .byte 0], 0, 0, false⟩⟩], []) := by
  have hentry : Source.instructionOn? (addressSite.line "1?',':0") =
      some (⟨"ld", [.word "a", .address], [0x3A], .word⟩, "1?',':0") := by decide +kernel
  have hencode : Source.encode ⟨"ld", [.word "a", .address], [0x3A], .word⟩ "1?',':0" =
      pure [.byte 0x3A, .byte 0x2C, .byte 0] := by cbv
  have hline := Source.elementsOfLine_of_encode hentry (by decide +kernel) hencode
    (List.cons_ne_nil _ _) ⟨"f", 1⟩
  exact Source.elementsOfLines_of_forall₂ "f" [addressSite.line "1?',':0"] (.cons hline .nil)

set_option maxRecDepth 10000 in
theorem elementsOfLines_cutChoice : Source.elementsOfLines "f"
    [Source.definition "x" "1?',':0", addressSite.line "x"] =
      ([⟨⟨"f", 1⟩, .label { name := "x" }⟩, ⟨⟨"f", 2⟩,
        .bytes ⟨[.byte 0x3A, .expr (.deferred "x" ["x"]), .high], 0, 0, false⟩⟩],
        [⟨.oneOperand "EQU", ⟨"f", 1⟩⟩]) := by
  have hentry : Source.instructionOn? (addressSite.line "x") =
      some (⟨"ld", [.word "a", .address], [0x3A], .word⟩, "x") := by decide +kernel
  have hencode : Source.encode ⟨"ld", [.word "a", .address], [0x3A], .word⟩ "x" =
      pure [.byte 0x3A, .expr (.deferred "x" ["x"]), .high] := by cbv
  have hcut : Source.elementsOfLine ⟨"f", 1⟩ (Source.definition "x" "1?',':0") =
      ([⟨⟨"f", 1⟩, .label { name := "x" }⟩], [⟨.oneOperand "EQU", ⟨"f", 1⟩⟩]) := by cbv
  have hline := Source.elementsOfLine_of_encode hentry (by decide +kernel) hencode
    (List.cons_ne_nil _ _) ⟨"f", 2⟩
  exact Source.elementsOfLines_of_forall₂ "f"
    [Source.definition "x" "1?',':0", addressSite.line "x"] (.cons hcut (.cons hline .nil))

/-- The definition is cut at the comma. -/
theorem misnamed_choice : Misnamed addressSite "1?',':0" "x" := by
  have hzero : ([0x3A, 0, 0] : List UInt8) ≠ [0x3A, 0x2C, 0] := by decide
  exact misnamed_of elementsOfLines_choice (by cbv) rfl elementsOfLines_cutChoice
    (List.cons_ne_nil _ _) (by cbv) (by cbv) hzero

set_option maxRecDepth 10000 in
theorem holds_five : dataSite.Holds "defb" "5" :=
  ⟨⟨fun c hc => by cases hc; rfl, fun c hc => by cases hc; rfl⟩, by cbv, by cbv, by cbv⟩

theorem takes_five : dataSite.Takes "defb" "5" := by
  have hkey : Source.dropDot (Text.lower "defb") = "defb" := by cbv
  exact .data (by rw [hkey]; decide)
    (.direct (fun _ hc => by cases hc) fun _ hc => by cases hc)

set_option maxRecDepth 10000 in
theorem holds_choice : addressSite.Holds "ld" "1?',':0" :=
  ⟨⟨fun c hc => by cases hc; rfl, fun c hc => by cases hc; rfl⟩, by cbv, by cbv, by cbv⟩

/-- The name must not be EQU, and an expression in parentheses must be one operand by itself. -/
theorem unnamed_constants :
    (dataSite.Holds "defb" "5" ∧ dataSite.Takes "defb" "5" ∧ Source.Folds "5" (.number 5) ∧
      Source.isName "equ".toList = true ∧ Text.lower "equ" ∉ Instruction.operandWords ∧
      Misnamed dataSite "5" "equ") ∧
    addressSite.Holds "ld" "1?',':0" ∧ addressSite.Around true ∧
      Source.Folds "1?',':0" (.text ",") ∧ Source.NewName "x" ∧
      Misnamed addressSite "1?',':0" "x" := by
  have hfive : Source.Folds "5" (.number 5) := ⟨.num 5, by cbv, rfl, rfl⟩
  have hchoice : Source.Folds "1?',':0" (.text ",") :=
    ⟨.ternary (.num 1) (.str ",") (.num 0), by cbv, rfl, rfl⟩
  exact ⟨⟨holds_five, takes_five, hfive, rfl, by decide +kernel, misnamed_equ⟩, holds_choice,
    around_addressSite, hchoice, ⟨rfl, rfl, by decide +kernel⟩, misnamed_choice⟩

end Assembly

end Z80Asm
