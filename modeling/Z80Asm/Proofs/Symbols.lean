import Mathlib
import Z80Asm.SymbolTable

/-! Reading and changing symbol tables. -/

namespace Z80Asm.SymbolTable
set_option autoImplicit true

/-- All of a table but its values: the names in order, and where each was declared. -/
def outline (t : SymbolTable) : List (String × Location) := t.symbols.map fun s => (s.name, s.loc)

theorem names_eq_outline (t : SymbolTable) : t.names = t.outline.map Prod.fst := by
  simp only [names, outline, List.map_map]
  rfl

theorem names_congr {t t' : SymbolTable} (h : t.outline = t'.outline) : t.names = t'.names := by
  rw [names_eq_outline, names_eq_outline, h]

theorem find?_isSome (t : SymbolTable) (name : String) :
    (t.find? name).isSome ↔ name ∈ t.names := by
  simp only [find?, List.find?_isSome, decide_eq_true_eq, names, List.mem_map]

theorem get?_isSome (t : SymbolTable) (name : String) : (t.get? name).isSome ↔ name ∈ t.names := by
  rw [get?, Option.isSome_map, find?_isSome]

theorem mem_names_of_get? {t : SymbolTable} (h : t.get? name = some v) : name ∈ t.names :=
  (t.get?_isSome name).1 (h ▸ rfl)

theorem get?_eq_none {t : SymbolTable} (h : name ∉ t.names) : t.get? name = none :=
  Option.not_isSome_iff_eq_none.1 (mt (t.get?_isSome name).1 h)

theorem exists_get? {t : SymbolTable} (h : name ∈ t.names) : ∃ v, t.get? name = some v :=
  Option.isSome_iff_exists.1 ((t.get?_isSome name).2 h)

theorem mem_names_of_resolve? {t : SymbolTable} (h : t.resolve? scope name = some q) :
    q ∈ t.names := by
  simpa only [contains, List.contains_iff_mem] using List.find?_some h

theorem resolve?_congr {t t' : SymbolTable} (h : ∀ q, q ∈ t.names ↔ q ∈ t'.names) :
    t.resolve? = t'.resolve? := by
  have hc : t.contains = t'.contains := by
    funext q
    rw [Bool.eq_iff_iff]
    simpa only [contains, List.contains_iff_mem] using h q
  funext scope name
  rw [resolve?, resolve?, hc]

theorem outline_update (t : SymbolTable) (name : String) (v : Value) :
    (t.update name v).outline = t.outline := by
  simp only [outline, update, List.map_map]
  congr 1
  funext s
  simp only [Function.comp_apply]
  split <;> rfl

theorem find?_update (t : SymbolTable) (name q : String) (v : Value) :
    (t.update name v).find? q =
      (t.find? q).map fun s => if s.name = name then { s with value := v } else s := by
  simp only [find?, update, List.find?_map]
  congr 2
  funext s
  simp only [Function.comp_apply]
  split <;> rfl

theorem get?_update_self {t : SymbolTable} (h : name ∈ t.names) (v : Value) :
    (t.update name v).get? name = some v := by
  obtain ⟨s, hs⟩ := Option.isSome_iff_exists.1 ((t.find?_isSome name).2 h)
  have he : s.name = name := by simpa only [decide_eq_true_eq] using List.find?_some hs
  simp only [get?, find?_update, hs, he, Option.map_some, ↓reduceIte]

theorem get?_update_of_ne {t : SymbolTable} (h : q ≠ name) (v : Value) :
    (t.update name v).get? q = t.get? q := by
  simp only [get?, find?_update]
  cases hs : t.find? q with
  | none => rfl
  | some s =>
    have he : s.name = q := by simpa only [decide_eq_true_eq] using List.find?_some hs
    simp only [Option.map_some, he, if_neg h]

theorem set_of_mem {t : SymbolTable} (h : name ∈ t.names) (v : Value) :
    t.set name v = t.update name v := by
  simp only [set, declare?, dif_pos h, Option.getD_none]

theorem outline_set {t : SymbolTable} (h : name ∈ t.names) (v : Value) :
    (t.set name v).outline = t.outline := by
  rw [set_of_mem h, outline_update]

theorem get?_set_of_ne {t : SymbolTable} (h : name ∈ t.names) (hq : q ≠ name) (v : Value) :
    (t.set name v).get? q = t.get? q := by
  rw [set_of_mem h, get?_update_of_ne hq]

theorem declare?_eq_some {t t' : SymbolTable} (h : t.declare? name v site = some t') :
    name ∉ t.names ∧ t'.symbols = t.symbols ++ [⟨name, v, site⟩] := by
  unfold declare? at h
  split at h
  · cases h
  · rename_i hn
    cases h
    exact ⟨hn, rfl⟩

theorem get?_declare?_self {t t' : SymbolTable} (h : t.declare? name v site = some t') :
    t'.get? name = some v := by
  obtain ⟨hn, hs⟩ := declare?_eq_some h
  have hf : t.symbols.find? (·.name = name) = none :=
    Option.not_isSome_iff_eq_none.1 (mt (t.find?_isSome name).1 hn)
  simp only [get?, find?, hs, List.find?_append, hf, Option.none_or, List.find?_cons_of_pos,
    decide_true, Option.map_some]

theorem get?_declare? {t t' : SymbolTable} (h : t.declare? name v site = some t')
    (hq : t.get? q = some w) : t'.get? q = some w := by
  obtain ⟨s, hf, he⟩ := Option.map_eq_some_iff.1 hq
  have hf' : t.symbols.find? (·.name = q) = some s := hf
  simp only [get?, find?, (declare?_eq_some h).2, List.find?_append, hf', Option.some_or,
    Option.map_some, he]

theorem get?_set_self (t : SymbolTable) (name : String) (v : Value) :
    (t.set name v).get? name = some v := by
  by_cases h : name ∈ t.names
  · rw [set_of_mem h, get?_update_self h]
  · have hd : ∃ t', t.declare? name v {} = some t' := by
      simp only [declare?, dif_neg h, Option.some.injEq, exists_eq']
    obtain ⟨t', hd⟩ := hd
    rw [set, hd]
    exact get?_declare?_self hd

theorem declare?_of_not_mem {t : SymbolTable} (h : name ∉ t.names) (v : Value) (site : Location) :
    ∃ t', t.declare? name v site = some t' ∧ t'.outline = t.outline ++ [(name, site)] ∧
      ∀ q, t'.get? q = if q = name then some v else t.get? q := by
  have hd : ∃ t', t.declare? name v site = some t' := by
    simp only [declare?, dif_neg h, Option.some.injEq, exists_eq']
  obtain ⟨t', hd⟩ := hd
  have hs := (declare?_eq_some hd).2
  refine ⟨t', hd, ?_, fun q => ?_⟩
  · rw [outline, hs, List.map_append]
    rfl
  · split
    · rename_i he
      rw [he]
      exact get?_declare?_self hd
    · rename_i hq
      have hlast : [(⟨name, v, site⟩ : Symbol)].find? (·.name = q) = none := by
        rw [List.find?_singleton, if_neg]
        exact fun he => hq (of_decide_eq_true he).symm
      simp only [get?, find?, hs, List.find?_append, hlast, Option.or_none]

theorem declare?_of_mem {t : SymbolTable} (h : name ∈ t.names) (v : Value) (site : Location) :
    t.declare? name v site = none := dif_pos h

theorem get?_set (t : SymbolTable) (name q : String) (v : Value) :
    (t.set name v).get? q = if q = name then some v else t.get? q := by
  by_cases h : name ∈ t.names
  · split
    · rename_i hq
      rw [hq]
      exact t.get?_set_self name v
    · rename_i hq
      exact get?_set_of_ne h hq v
  · obtain ⟨t', hd, -, hget⟩ := declare?_of_not_mem h v {}
    rw [set, hd]
    exact hget q

theorem outline_foldl_set {t : SymbolTable} {qs : List String} (h : ∀ q ∈ qs, q ∈ t.names)
    (v : Value) : (qs.foldl (fun t q => t.set q v) t).outline = t.outline := by
  induction qs generalizing t with
  | nil => rfl
  | cons q qs ih =>
    have ho := outline_set (h q List.mem_cons_self) v
    rw [List.foldl_cons, ih, ho]
    intro p hp
    rw [names_congr ho]
    exact h p (List.mem_cons_of_mem q hp)

theorem get?_foldl_set (t : SymbolTable) (qs : List String) (v : Value) (p : String) :
    (qs.foldl (fun t q => t.set q v) t).get? p = if p ∈ qs then some v else t.get? p := by
  induction qs generalizing t with
  | nil => rfl
  | cons q qs ih =>
    rw [List.foldl_cons, ih, get?_set]
    by_cases hp : p ∈ qs
    · rw [if_pos hp, if_pos (List.mem_cons_of_mem q hp)]
    · rw [if_neg hp]
      simp only [List.mem_cons, hp, or_false]

theorem get?_foldl_set_of_not_mem (t : SymbolTable) {qs : List String} (v : Value) (hp : p ∉ qs) :
    (qs.foldl (fun t q => t.set q v) t).get? p = t.get? p := by
  rw [get?_foldl_set, if_neg hp]

theorem get?_foldl_set_of_mem (t : SymbolTable) {qs : List String} (v : Value) (hp : p ∈ qs) :
    (qs.foldl (fun t q => t.set q v) t).get? p = some v := by
  rw [get?_foldl_set, if_pos hp]

theorem find?_of_mem {l : List Symbol} (hl : (l.map Symbol.name).Nodup) (hs : s ∈ l) :
    l.find? (·.name = s.name) = some s := by
  induction l with
  | nil => cases hs
  | cons r l ih =>
    rw [List.map_cons, List.nodup_cons] at hl
    rcases List.mem_cons.1 hs with he | hs
    · subst he
      exact List.find?_cons_of_pos (by simp only [decide_true])
    · have hne : r.name ≠ s.name := fun he => hl.1 (he ▸ List.mem_map_of_mem hs)
      rw [List.find?_cons_of_neg (by simpa only [decide_eq_true_eq] using hne)]
      exact ih hl.2 hs

/-- A table consists of its outline and its values. -/
theorem symbols_eq (t : SymbolTable) :
    t.symbols = t.outline.map fun p => ⟨p.1, (t.get? p.1).getD default, p.2⟩ := by
  simp only [outline, List.map_map]
  conv => lhs; rw [← List.map_id t.symbols]
  apply List.map_congr_left
  intro s hs
  simp only [Function.comp_apply, get?, find?, find?_of_mem t.nodup hs, Option.map_some,
    Option.getD_some, id_eq]

theorem loc_congr {t t' : SymbolTable} (h : t'.outline = t.outline) (name : String) :
    t'.loc name = t.loc name := by
  have hfind (t : SymbolTable) : (t.find? name).map Symbol.loc =
      (t.outline.find? (·.1 = name)).map Prod.snd := by
    rw [outline, List.find?_map, Option.map_map]
    rfl
  rw [loc, loc, hfind, hfind, h]

theorem ext_get? {t t' : SymbolTable} (ho : t.outline = t'.outline)
    (hv : ∀ name, t.get? name = t'.get? name) : t = t' := by
  have hs : t.symbols = t'.symbols := by
    rw [t.symbols_eq, t'.symbols_eq, ho]
    simp only [hv]
  cases t
  cases t'
  cases hs
  rfl

end Z80Asm.SymbolTable
