import Z80Asm.Proofs.Symbols

/-! Scopes as lists of indices. A qualified name is read in one way only as a scope and a name, as
long as names do not begin with a segment themselves. -/

namespace Z80Asm
set_option autoImplicit true

namespace Scope

/-- The scope with the given indices, innermost first. -/
def path : List Nat → String
  | [] => ""
  | i :: is => "%" ++ toString i ++ "_" ++ path is

def Unsegmented (name : String) : Prop := afterSegment? name.toList = none

instance (name : String) : Decidable (Unsegmented name) := inferInstanceAs (Decidable (_ = none))

theorem toList_path (i : Nat) (is : List Nat) :
    (path (i :: is)).toList = '%' :: (Nat.toDigits 10 i ++ '_' :: (path is).toList) := by
  rw [path, Nat.toString_eq_ofList_toDigits]
  simp only [String.toList_append, String.toList_ofList, List.append_assoc]
  rfl

theorem split_digits (i : Nat) (cs : List Char) :
    (Nat.toDigits 10 i ++ '_' :: cs).takeWhile Char.isDigit = Nat.toDigits 10 i ∧
      (Nat.toDigits 10 i ++ '_' :: cs).dropWhile Char.isDigit = '_' :: cs := by
  have hdigits : ∀ c ∈ Nat.toDigits 10 i, c.isDigit = true :=
    fun c hc => Nat.isDigit_of_mem_toDigits (by decide) (by decide) hc
  have hstop : ¬ '_'.isDigit = true := by decide
  rw [List.takeWhile_append_of_pos hdigits, List.dropWhile_append_of_pos hdigits,
    List.takeWhile_cons_of_neg hstop, List.dropWhile_cons_of_neg hstop, List.append_nil]
  exact ⟨rfl, rfl⟩

theorem afterSegment?_path (i : Nat) (is : List Nat) (name : List Char) :
    afterSegment? ((path (i :: is)).toList ++ name) = some ((path is).toList ++ name) := by
  rw [toList_path, List.cons_append, List.append_assoc, List.cons_append, afterSegment?]
  obtain ⟨htake, hdrop⟩ := split_digits i ((path is).toList ++ name)
  rw [htake, hdrop]
  cases hd : Nat.toDigits 10 i with
  | nil => exact (Nat.toDigits_ne_nil hd).elim
  | cons c cs => rfl

theorem outer_path (i : Nat) (is : List Nat) :
    outer (path (i :: is)).toList = (path is).toList := by
  have h := afterSegment?_path i is []
  rw [List.append_nil, List.append_nil] at h
  rw [outer, h]
  rfl

theorem path_cons_ne_nil (i : Nat) (is : List Nat) : (path (i :: is)).toList ≠ [] := by
  rw [toList_path]
  exact List.cons_ne_nil _ _

theorem enclosing_path (i : Nat) (is : List Nat) :
    enclosing (path (i :: is)).toList = (path (i :: is)).toList :: enclosing (path is).toList := by
  rw [enclosing, dif_neg (path_cons_ne_nil i is), outer_path]

/-- A qualified name has one scope and one name. -/
theorem path_append_inj (hx : Unsegmented x) (hy : Unsegmented y)
    (h : path is ++ x = path js ++ y) : is = js ∧ x = y := by
  induction is generalizing js with
  | nil =>
    cases js with
    | nil => exact ⟨rfl, by simpa only [path, String.empty_append] using h⟩
    | cons j js =>
      rw [path, String.empty_append] at h
      have hnone : afterSegment? x.toList = none := hx
      rw [h, String.toList_append, afterSegment?_path] at hnone
      cases hnone
  | cons i is ih =>
    cases js with
    | nil =>
      rw [path, String.empty_append] at h
      have hnone : afterSegment? y.toList = none := hy
      rw [← h, String.toList_append, afterSegment?_path] at hnone
      cases hnone
    | cons j js =>
      have hchars : (path (i :: is)).toList ++ x.toList = (path (j :: js)).toList ++ y.toList := by
        rw [← String.toList_append, ← String.toList_append, h]
      have hrest := congrArg afterSegment? hchars
      rw [afterSegment?_path, afterSegment?_path, Option.some.injEq, ← String.toList_append,
        ← String.toList_append, String.toList_inj] at hrest
      obtain ⟨rfl, rfl⟩ := ih hrest
      rw [toList_path, toList_path] at hchars
      simp only [List.cons_append, List.append_assoc, List.cons.injEq, true_and] at hchars
      have hdigits := congrArg (List.takeWhile Char.isDigit) hchars
      rw [(split_digits i _).1, (split_digits j _).1] at hdigits
      have hi : i = j := by
        rw [← Nat.ofDigitChars_ten_toDigits (n := i), hdigits, Nat.ofDigitChars_ten_toDigits]
      rw [hi]
      exact ⟨rfl, rfl⟩

def Below (n : Nat) (scope : String) : Prop := ∃ is, scope = path is ∧ ∀ i ∈ is, i < n

def Within (n : Nat) (q : String) : Prop :=
  ∃ is x, q = path is ++ x ∧ Unsegmented x ∧ ∀ i ∈ is, i < n

theorem Below.mono (h : Below n scope) (hn : n ≤ n') : Below n' scope := by
  obtain ⟨is, hscope, his⟩ := h
  exact ⟨is, hscope, fun i hi => Nat.lt_of_lt_of_le (his i hi) hn⟩

theorem Within.mono (h : Within n q) (hn : n ≤ n') : Within n' q := by
  obtain ⟨is, x, hq, hx, his⟩ := h
  exact ⟨is, x, hq, hx, fun i hi => Nat.lt_of_lt_of_le (his i hi) hn⟩

theorem not_within (hx : Unsegmented x) (hi : i ∈ is) (hn : n ≤ i) : ¬ Within n (path is ++ x) := by
  rintro ⟨js, y, hq, hy, hjs⟩
  obtain ⟨rfl, rfl⟩ := path_append_inj hx hy hq
  exact Nat.not_lt.2 hn (hjs i hi)

theorem ofStack_eq_path (is : List Nat) : ofStack (is.reverse.map Int.ofNat) = path is := by
  rw [ofStack, ← List.map_reverse, List.reverse_reverse, List.map_map]
  induction is with
  | nil => rfl
  | cons i is ih =>
    rw [List.map_cons, String.join_cons, ih]
    rfl

end Scope

namespace SymbolTable

theorem resolve?_path_nil (t : SymbolTable) (x : String) :
    t.resolve? (Scope.path []) x =
      if t.contains (Scope.path [] ++ x) then some (Scope.path [] ++ x) else none := by
  have hnil : Scope.enclosing (Scope.path []).toList = [[]] := by
    rw [Scope.enclosing]
    exact dif_pos rfl
  unfold resolve?
  rw [hnil, List.map_singleton, List.find?_singleton]
  rfl

theorem resolve?_path (t : SymbolTable) (i : Nat) (is : List Nat) (x : String) :
    t.resolve? (Scope.path (i :: is)) x =
      if t.contains (Scope.path (i :: is) ++ x) then some (Scope.path (i :: is) ++ x)
      else t.resolve? (Scope.path is) x := by
  unfold resolve?
  rw [Scope.enclosing_path, List.map_cons, String.ofList_toList, List.find?_cons]
  cases t.contains (Scope.path (i :: is) ++ x) <;> rfl

theorem path_of_resolve? {t : SymbolTable} (h : t.resolve? (Scope.path is) x = some q) :
    ∃ js, js <:+ is ∧ q = Scope.path js ++ x := by
  induction is with
  | nil =>
    rw [resolve?_path_nil] at h
    split at h
    · cases h
      exact ⟨[], List.suffix_refl _, rfl⟩
    · cases h
  | cons i is ih =>
    rw [resolve?_path] at h
    split at h
    · cases h
      exact ⟨i :: is, List.suffix_refl _, rfl⟩
    · obtain ⟨js, hjs, hq⟩ := ih h
      exact ⟨js, hjs.trans (List.suffix_cons i is), hq⟩

end SymbolTable
end Z80Asm
