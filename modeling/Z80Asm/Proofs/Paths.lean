import Mathlib
import Z80Asm.Path

/-! Cleaned paths. Cleaning a path twice is cleaning it once, and a path has the key of its cleaned
form, so a file has one key however it is spelled. -/

namespace Z80Asm
set_option autoImplicit true

namespace Text

theorem pieces_ne_nil (c : Char) (cs : List Char) : pieces c cs ≠ [] := by
  cases cs with
  | nil => exact List.cons_ne_nil _ _
  | cons a cs =>
    unfold pieces
    rw [List.foldr_cons]
    split
    · exact List.cons_ne_nil _ _
    · split
      · exact List.cons_ne_nil _ _
      · exact List.cons_ne_nil _ _

theorem pieces_self (c : Char) (cs : List Char) : pieces c (c :: cs) = [] :: pieces c cs :=
  if_pos rfl

theorem pieces_of_ne (h : a ≠ c) (cs : List Char) :
    ∃ piece more, pieces c cs = piece :: more ∧ pieces c (a :: cs) = (a :: piece) :: more := by
  obtain ⟨piece, more, hp⟩ := List.exists_cons_of_ne_nil (pieces_ne_nil c cs)
  refine ⟨piece, more, hp, ?_⟩
  unfold pieces at hp ⊢
  rw [List.foldr_cons, hp, if_neg h]

theorem pieces_append (c : Char) (cs cs' : List Char) :
    pieces c (cs ++ c :: cs') = pieces c cs ++ pieces c cs' := by
  induction cs with
  | nil => exact pieces_self c cs'
  | cons a cs ih =>
    rw [List.cons_append]
    by_cases h : a = c
    · rw [h, pieces_self, pieces_self, ih]
      rfl
    · obtain ⟨piece, more, hp, he⟩ := pieces_of_ne h cs
      obtain ⟨piece', more', hp', he'⟩ := pieces_of_ne h (cs ++ c :: cs')
      rw [ih, hp, List.cons_append] at hp'
      cases hp'
      rw [he, he']
      rfl

theorem pieces_of_not_mem {cs : List Char} (h : c ∉ cs) : pieces c cs = [cs] := by
  induction cs with
  | nil => rfl
  | cons a cs ih =>
    rw [List.mem_cons, not_or] at h
    obtain ⟨piece, more, hp, he⟩ := pieces_of_ne (Ne.symm h.1) cs
    rw [ih h.2] at hp
    cases hp
    exact he

theorem not_mem_of_mem_pieces {cs : List Char} (h : piece ∈ pieces c cs) : c ∉ piece := by
  induction cs generalizing piece with
  | nil =>
    rw [List.mem_singleton.1 h]
    exact List.not_mem_nil
  | cons a cs ih =>
    by_cases ha : a = c
    · rw [ha, pieces_self] at h
      rcases List.mem_cons.1 h with rfl | h
      · exact List.not_mem_nil
      · exact ih h
    · obtain ⟨first, more, hp, he⟩ := pieces_of_ne ha cs
      rw [he] at h
      rcases List.mem_cons.1 h with rfl | h
      · rw [List.mem_cons, not_or]
        exact ⟨Ne.symm ha, ih (hp ▸ List.mem_cons_self)⟩
      · exact ih (hp ▸ List.mem_cons_of_mem first h)

end Text

namespace Path

/-- A component of a path that says where to go. -/
structure Component (c : List Char) : Prop where
  not_empty : c ≠ []
  not_here : c ≠ ['.']
  whole : '/' ∉ c

theorem push_cases (rooted : Bool) (acc : List (List Char)) (c : List Char) :
    (c = [] ∨ c = ['.']) ∧ push rooted acc c = acc ∨
      c ≠ [] ∧ c ≠ ['.'] ∧ (push rooted acc c = c :: acc ∨
        c = ['.', '.'] ∧ push rooted acc c = acc.tail) := by
  unfold push
  split
  · rename_i h
    rw [Bool.or_eq_true, decide_eq_true_eq, decide_eq_true_eq] at h
    exact .inl ⟨h, rfl⟩
  · rename_i h
    rw [Bool.or_eq_true, decide_eq_true_eq, decide_eq_true_eq, not_or] at h
    refine .inr ⟨h.1, h.2, ?_⟩
    split
    · rename_i hup
      split
      · split
        · exact .inr ⟨hup, rfl⟩
        · exact .inl rfl
      · split
        · exact .inl rfl
        · exact .inr ⟨hup, rfl⟩
    · exact .inl rfl

theorem push_component (rooted : Bool) {acc : List (List Char)} (hacc : ∀ a ∈ acc, Component a)
    (hc : '/' ∉ c) : ∀ a ∈ push rooted acc c, Component a := by
  rcases push_cases rooted acc c with ⟨-, h⟩ | ⟨h₁, h₂, h | ⟨-, h⟩⟩
  · rw [h]
    exact hacc
  · rw [h]
    intro a ha
    rcases List.mem_cons.1 ha with rfl | ha
    · exact ⟨h₁, h₂, hc⟩
    · exact hacc a ha
  · rw [h]
    exact fun a ha => hacc a (List.mem_of_mem_tail ha)

theorem foldl_push_component (rooted : Bool) {acc cs : List (List Char)}
    (hacc : ∀ a ∈ acc, Component a) (hcs : ∀ c ∈ cs, '/' ∉ c) :
    ∀ a ∈ cs.foldl (push rooted) acc, Component a := by
  induction cs generalizing acc with
  | nil => exact hacc
  | cons c cs ih =>
    exact ih (push_component rooted hacc (hcs c List.mem_cons_self))
      fun a ha => hcs a (List.mem_cons_of_mem c ha)

theorem push_name (rooted : Bool) (acc : List (List Char)) (h : Component c)
    (hup : c ≠ ['.', '.']) : push rooted acc c = c :: acc := by
  rcases push_cases rooted acc c with ⟨h' | h', -⟩ | ⟨-, -, h' | ⟨h', -⟩⟩
  · exact (h.not_empty h').elim
  · exact (h.not_here h').elim
  · exact h'
  · exact (hup h').elim

theorem push_up_name (rooted : Bool) (acc : List (List Char)) (hup : c ≠ ['.', '.']) :
    push rooted (c :: acc) ['.', '.'] = acc := if_neg hup

theorem foldl_push_cleaned (rooted : Bool) (acc : List (List Char)) {cs : List (List Char)}
    (hcs : ∀ c ∈ cs, '/' ∉ c) :
    (cs.foldl (push false) []).reverse.foldl (push rooted) acc = cs.foldl (push rooted) acc := by
  induction cs using List.reverseRecOn with
  | nil => rfl
  | append_singleton cs c ih =>
    have hcs' : ∀ a ∈ cs, '/' ∉ a := fun a ha => hcs a (List.mem_append_left _ ha)
    have hnone : ∀ a ∈ ([] : List (List Char)), Component a := fun _ h => nomatch h
    have hcomponents := foldl_push_component false hnone hcs'
    rw [List.foldl_append, List.foldl_append, List.foldl_cons, List.foldl_nil, List.foldl_cons,
      List.foldl_nil, ← ih hcs']
    generalize cs.foldl (push false) [] = done at hcomponents
    have hpush (d : List Char) : (d :: done).reverse.foldl (push rooted) acc =
        push rooted (done.reverse.foldl (push rooted) acc) d := by
      rw [List.reverse_cons, List.foldl_append]
      rfl
    rcases push_cases false done c with ⟨h, hs⟩ | ⟨h₁, h₂, hs | ⟨hup, hs⟩⟩
    · rw [hs]
      rcases h with rfl | rfl
      · rfl
      · rfl
    · rw [hs, hpush]
    · -- two dots have cancelled a name, which they do behind anything
      cases done with
      | nil =>
        subst hup
        cases hs
      | cons last before =>
        subst hup
        have hlast : last ≠ ['.', '.'] := by
          rintro rfl
          cases hs
        have hname := hcomponents last List.mem_cons_self
        rw [hs, List.tail_cons, List.reverse_cons, List.foldl_append, List.foldl_cons,
          List.foldl_nil, push_name rooted _ hname hlast, push_up_name rooted _ hlast]

theorem joinComponents_cons (c d : List Char) (cs : List (List Char)) :
    joinComponents (c :: d :: cs) = c ++ '/' :: joinComponents (d :: cs) := by
  simp only [joinComponents, List.intersperse_cons_cons, List.flatten_cons, List.cons_append,
    List.nil_append]

theorem pieces_joinComponents {cs : List (List Char)} (h : cs ≠ []) (hcs : ∀ c ∈ cs, '/' ∉ c) :
    Text.pieces '/' (joinComponents cs) = cs := by
  induction cs with
  | nil => exact (h rfl).elim
  | cons c cs ih =>
    have hc := hcs c List.mem_cons_self
    cases cs with
    | nil =>
      have hjoin : joinComponents [c] = c := List.append_nil c
      rw [hjoin, Text.pieces_of_not_mem hc]
    | cons d cs =>
      rw [joinComponents_cons, Text.pieces_append, Text.pieces_of_not_mem hc,
        ih (List.cons_ne_nil d cs) fun a ha => hcs a (List.mem_cons_of_mem c ha)]
      rfl

theorem isAbsolute_joinComponents {cs : List (List Char)} (hcs : ∀ c ∈ cs, Component c) :
    isAbsolute (joinComponents cs) = false := by
  cases cs with
  | nil => rfl
  | cons c cs =>
    have hc := hcs c List.mem_cons_self
    obtain ⟨a, c, rfl⟩ := List.exists_cons_of_ne_nil hc.not_empty
    have ha : a ≠ '/' := fun h => hc.whole (h ▸ List.mem_cons_self)
    have hhead : (joinComponents ((a :: c) :: cs)).head? = some a := by
      cases cs with
      | nil => rfl
      | cons d cs =>
        rw [joinComponents_cons]
        rfl
    unfold isAbsolute
    rw [hhead]
    simpa only [Option.some.injEq, decide_eq_false_iff_not] using ha

def components (path : List Char) : List (List Char) :=
  (Text.pieces '/' path).foldl (push (isAbsolute path)) []

theorem components_component (path : List Char) : ∀ c ∈ components path, Component c :=
  foldl_push_component _ (fun _ h => nomatch h) fun _ => Text.not_mem_of_mem_pieces

theorem cleanChars_absolute (h : isAbsolute path = true) :
    cleanChars path = '/' :: joinComponents (components path).reverse := by
  unfold cleanChars components
  rw [h]

theorem cleanChars_relative (h : isAbsolute path = false) :
    cleanChars path =
      if components path = [] then ['.'] else joinComponents (components path).reverse := by
  unfold cleanChars components
  rw [h]
  dsimp only
  cases (Text.pieces '/' path).foldl (push false) [] with
  | nil => rfl
  | cons c cs =>
    rw [if_neg (List.cons_ne_nil c cs)]
    obtain ⟨a, as, hr⟩ := List.exists_cons_of_ne_nil
      (List.reverse_ne_nil_iff.2 (List.cons_ne_nil c cs))
    rw [hr]

theorem isAbsolute_cleanChars (path : List Char) :
    isAbsolute (cleanChars path) = isAbsolute path := by
  cases h : isAbsolute path with
  | true =>
    rw [cleanChars_absolute h]
    rfl
  | false =>
    rw [cleanChars_relative h]
    split
    · rfl
    · apply isAbsolute_joinComponents
      exact fun c hc => components_component path c (List.mem_reverse.1 hc)

/-- A relative path comes to the same as its cleaned form, wherever it is taken from. -/
theorem foldl_push_cleanChars (rooted : Bool) (acc : List (List Char))
    (h : isAbsolute path = false) :
    (Text.pieces '/' (cleanChars path)).foldl (push rooted) acc =
      (Text.pieces '/' path).foldl (push rooted) acc := by
  have hpieces : ∀ c ∈ Text.pieces '/' path, '/' ∉ c := fun _ => Text.not_mem_of_mem_pieces
  rw [← foldl_push_cleaned rooted acc hpieces, cleanChars_relative h]
  have hdone : (Text.pieces '/' path).foldl (push false) [] = components path := by
    rw [components, h]
  rw [hdone]
  split
  · rename_i hnil
    rw [hnil]
    rfl
  · rename_i hne
    rw [pieces_joinComponents (List.reverse_ne_nil_iff.2 hne)]
    exact fun c hc => (components_component path c (List.mem_reverse.1 hc)).whole

theorem components_absolute (h : isAbsolute path = true) :
    ∀ c ∈ components path, c ≠ ['.', '.'] := by
  have hpush {acc : List (List Char)} (c : List Char) (hacc : ∀ a ∈ acc, a ≠ ['.', '.']) :
      ∀ a ∈ push true acc c, a ≠ ['.', '.'] := by
    by_cases hup : c = ['.', '.']
    · subst hup
      cases acc with
      | nil => exact hacc
      | cons last before =>
        rw [push_up_name true before (hacc last List.mem_cons_self)]
        exact fun a ha => hacc a (List.mem_cons_of_mem last ha)
    · rcases push_cases true acc c with ⟨-, hs⟩ | ⟨-, -, hs | ⟨hup', -⟩⟩
      · rw [hs]
        exact hacc
      · rw [hs]
        intro a ha
        rcases List.mem_cons.1 ha with rfl | ha
        · exact hup
        · exact hacc a ha
      · exact (hup hup').elim
  have hfold (cs acc : List (List Char)) (hacc : ∀ a ∈ acc, a ≠ ['.', '.']) :
      ∀ a ∈ cs.foldl (push true) acc, a ≠ ['.', '.'] := by
    induction cs generalizing acc with
    | nil => exact hacc
    | cons c cs ih => exact ih _ (hpush c hacc)
  rw [components, h]
  exact hfold _ [] fun _ h => nomatch h

theorem foldl_push_names (rooted : Bool) (acc : List (List Char)) {cs : List (List Char)}
    (hcs : ∀ c ∈ cs, Component c ∧ c ≠ ['.', '.']) :
    cs.foldl (push rooted) acc = cs.reverse ++ acc := by
  induction cs generalizing acc with
  | nil => rfl
  | cons c cs ih =>
    obtain ⟨hc, hup⟩ := hcs c List.mem_cons_self
    rw [List.foldl_cons, push_name rooted acc hc hup,
      ih _ fun a ha => hcs a (List.mem_cons_of_mem c ha), List.reverse_cons, List.append_assoc]
    rfl

theorem components_cleanChars (path : List Char) :
    components (cleanChars path) = components path := by
  unfold components
  rw [isAbsolute_cleanChars]
  cases h : isAbsolute path with
  | false => exact foldl_push_cleanChars false [] h
  | true =>
    have hdone : (Text.pieces '/' path).foldl (push true) [] = components path := by
      rw [components, h]
    have hnames : ∀ c ∈ (components path).reverse, Component c ∧ c ≠ ['.', '.'] := fun c hc =>
      ⟨components_component path c (List.mem_reverse.1 hc),
        components_absolute h c (List.mem_reverse.1 hc)⟩
    rw [hdone, cleanChars_absolute h, Text.pieces_self, List.foldl_cons]
    by_cases hnil : components path = []
    · rw [hnil]
      rfl
    · rw [pieces_joinComponents (List.reverse_ne_nil_iff.2 hnil) fun c hc => (hnames c hc).1.whole,
        foldl_push_names true _ hnames, List.reverse_reverse]
      exact List.append_nil _

theorem cleanChars_cleanChars (path : List Char) :
    cleanChars (cleanChars path) = cleanChars path := by
  have habs := isAbsolute_cleanChars path
  cases h : isAbsolute path with
  | true =>
    rw [h] at habs
    rw [cleanChars_absolute habs, components_cleanChars, cleanChars_absolute h]
  | false =>
    rw [h] at habs
    rw [cleanChars_relative habs, components_cleanChars, cleanChars_relative h]

theorem clean_clean (path : String) : clean (clean path) = clean path := by
  simp only [clean, String.toList_ofList, cleanChars_cleanChars]

theorem key_clean (hwork : workDir ≠ "") (path : String) :
    key workDir (clean path) = key workDir path := by
  have habs : isAbsolute (clean path).toList = isAbsolute path.toList := by
    rw [clean, String.toList_ofList, isAbsolute_cleanChars]
  unfold key
  rw [habs]
  cases h : isAbsolute path.toList with
  | true => exact clean_clean path
  | false =>
    have hwork' : workDir.isEmpty = false := by
      simpa only [Bool.eq_false_iff, ne_eq, String.isEmpty_iff] using hwork
    obtain ⟨c, cs, hcs⟩ := List.exists_cons_of_ne_nil (l := workDir.toList)
      (fun h => hwork (String.toList_eq_nil_iff.1 h))
    have hroot (tail : List Char) : isAbsolute (workDir.toList ++ '/' :: tail) =
        isAbsolute workDir.toList := by
      rw [hcs]
      rfl
    have hjoin (p : String) : (workDir ++ "/" ++ p).toList = workDir.toList ++ '/' :: p.toList := by
      rw [String.toList_append, String.toList_append, List.append_assoc]
      rfl
    have hcomponents : components (workDir ++ "/" ++ clean path).toList =
        components (workDir ++ "/" ++ path).toList := by
      rw [hjoin, hjoin]
      unfold components
      rw [hroot, hroot, Text.pieces_append, Text.pieces_append, List.foldl_append,
        List.foldl_append, clean, String.toList_ofList, foldl_push_cleanChars _ _ h]
    have hsame : isAbsolute (workDir ++ "/" ++ clean path).toList =
        isAbsolute (workDir ++ "/" ++ path).toList := by
      rw [hjoin, hjoin, hroot, hroot]
    simp only [join, hwork', Bool.false_eq_true, ↓reduceIte]
    have hchars : cleanChars (workDir ++ "/" ++ clean path).toList =
        cleanChars (workDir ++ "/" ++ path).toList := by
      cases ha : isAbsolute (workDir ++ "/" ++ path).toList with
      | true => rw [cleanChars_absolute (hsame.trans ha), cleanChars_absolute ha, hcomponents]
      | false => rw [cleanChars_relative (hsame.trans ha), cleanChars_relative ha, hcomponents]
    exact congrArg String.ofList hchars

end Path
end Z80Asm
