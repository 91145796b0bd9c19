import Z80Asm.Proofs.Meaning

/-! How the meaning of a table changes with the table. Symbols that get a value where they had none
add to it, and replacing expressions by what they denote leaves it as it is. -/

namespace Z80Asm
set_option autoImplicit true

@[simp] theorem Value.datum?_ofDatum (d : Datum) : (ofDatum d).content.datum? = some d := by
  cases d <;> rfl

theorem Value.isDeferred_iff {v : Value} :
    v.isDeferred = true ↔ ∃ text free, v.content = .deferred text free := by
  rw [Value.isDeferred]
  cases v.content with
  | deferred text free => exact ⟨fun _ => ⟨text, free, rfl⟩, fun _ => rfl⟩
  | _ => simp [Content.isDeferred]

theorem Value.isDeferred_of_datum? {v : Value} (h : v.content.datum? = some d) :
    v.isDeferred = false := by
  rw [Value.isDeferred]
  cases hc : v.content with
  | deferred =>
    rw [hc] at h
    cases h
  | _ => rfl

theorem Value.isDeferred_ofDatum (d : Datum) : (ofDatum d).isDeferred = false :=
  isDeferred_of_datum? (datum?_ofDatum d)

theorem Value.ofDatum_inj (h : ofDatum d = ofDatum d') : d = d' := by
  have he := congrArg (fun v => v.content.datum?) h
  simp only [datum?_ofDatum] at he
  exact Option.some.inj he

namespace SymbolTable

theorem evalIn_congr {t t' : SymbolTable} (h : ∀ q, q ∈ t.names ↔ q ∈ t'.names) :
    t.evalIn = t'.evalIn := by
  have hl : t.lookupIn = t'.lookupIn := by
    funext value here? scope name
    simp only [lookupIn, resolve?_congr h]
  funext value here? scope text
  simp only [evalIn, hl]

/-- `t'` has the names of `t`. A symbol keeps its value, unless it had none at all or was deferred
and now has the value that it denotes. -/
structure Grows (t t' : SymbolTable) : Prop where
  outline : t'.outline = t.outline
  value : ∀ name v, t.get? name = some v → t'.get? name = some v ∨ v.content = .unresolved ∨
    v.isDeferred = true ∧ ∃ d, t.Denotes name d ∧ t'.get? name = some (.ofDatum d)

theorem Grows.refl (t : SymbolTable) : t.Grows t := ⟨rfl, fun _ _ h => .inl h⟩

theorem Grows.names (h : Grows t t') : t'.names = t.names := names_congr h.outline

theorem Grows.evalIn_eq (h : Grows t t') : t'.evalIn = t.evalIn :=
  evalIn_congr fun q => by rw [h.names]

theorem Grows.extends (h : Grows t t') : Extends t.meaning t'.meaning := by
  intro name d hd
  replace hd := meaning_eq_some_iff.1 hd
  induction hd with
  | known hv hd =>
    rcases h.value _ _ hv with hv' | hu | ⟨hdef, -⟩
    · exact meaning_of_known hv' hd
    · rw [hu] at hd
      cases hd
    · rw [Value.isDeferred_of_datum? hd] at hdef
      cases hdef
  | deferred value hv hc hvalue he ih =>
    rcases h.value _ _ hv with hv' | hu | ⟨-, w, hw, hv'⟩
    · apply meaning_eq_some_iff.2
      apply Denotes.deferred value hv' hc fun q w hq => meaning_eq_some_iff.1 (ih q w hq)
      rwa [h.evalIn_eq]
    · rw [hc] at hu
      cases hu
    · rw [← hw.unique (.deferred value hv hc hvalue he)]
      exact meaning_of_known hv' (Value.datum?_ofDatum w)

theorem Grows.get?_of_known (h : Grows t t') (hv : t.get? name = some v)
    (hd : v.content.datum? = some d) : t'.get? name = some v := by
  rcases h.value _ _ hv with hv' | hu | ⟨hdef, -⟩
  · exact hv'
  · rw [hu] at hd
    cases hd
  · rw [Value.isDeferred_of_datum? hd] at hdef
    cases hdef

/-- `t'` is `t` with some of its deferred symbols replaced by the values that they denote. -/
structure Settles (t t' : SymbolTable) : Prop where
  outline : t'.outline = t.outline
  value : ∀ name v, t.get? name = some v → t'.get? name = some v ∨
    v.isDeferred = true ∧ ∃ d, t.Denotes name d ∧ t'.get? name = some (.ofDatum d)

theorem Settles.refl (t : SymbolTable) : t.Settles t := ⟨rfl, fun _ _ h => .inl h⟩

theorem Settles.names (h : Settles t t') : t'.names = t.names := names_congr h.outline

theorem Settles.get?_eq_none (h : Settles t t') (hv : t.get? name = none) :
    t'.get? name = none := by
  apply SymbolTable.get?_eq_none
  rw [h.names]
  intro hn
  obtain ⟨v, hv'⟩ := exists_get? hn
  rw [hv] at hv'
  cases hv'

theorem Settles.get?_cases (h : Settles t t') (hv : t'.get? name = some v) :
    t.get? name = some v ∨ ∃ d, t.Denotes name d ∧ v = .ofDatum d := by
  obtain ⟨v₀, hv₀⟩ := exists_get? (h.names ▸ mem_names_of_get? hv)
  rcases h.value name v₀ hv₀ with hv' | ⟨-, d, hd, hv'⟩
  · exact .inl (hv₀.trans (hv'.symm.trans hv))
  · exact .inr ⟨d, hd, Option.some.inj (hv.symm.trans hv')⟩

theorem Settles.get?_of_deferred (h : Settles t t') (hv : t'.get? q = some v)
    (hd : v.isDeferred = true) : t.get? q = some v := by
  rcases h.get?_cases hv with hv' | ⟨d, -, rfl⟩
  · exact hv'
  · rw [Value.isDeferred_ofDatum] at hd
    cases hd

theorem Settles.grows (h : Settles t t') : Grows t t' := by
  refine ⟨h.outline, fun name v hv => ?_⟩
  rcases h.value name v hv with hv' | hd
  · exact .inl hv'
  · exact .inr (.inr hd)

theorem Settles.set (h : Settles t t') (hv : t.get? name = some v) (hd : v.isDeferred = true)
    (hw : t.Denotes name d) : Settles t (t'.set name (.ofDatum d)) := by
  have hn : name ∈ t'.names := h.names ▸ mem_names_of_get? hv
  refine ⟨(outline_set hn _).trans h.outline, fun q w hq => ?_⟩
  by_cases he : q = name
  · subst he
    rw [hv] at hq
    cases hq
    exact .inr ⟨hd, d, hw, get?_set_self t' q _⟩
  · rw [get?_set_of_ne hn he]
    exact h.value q w hq

theorem Settles.extends (h : Settles t t') : Extends t'.meaning t.meaning := by
  intro name d hd
  replace hd := meaning_eq_some_iff.1 hd
  induction hd with
  | known hv hd =>
    rcases h.get?_cases hv with hv' | ⟨w, hw, rfl⟩
    · exact meaning_of_known hv' hd
    · rw [Value.datum?_ofDatum] at hd
      exact meaning_eq_some_iff.2 (Option.some.inj hd ▸ hw)
  | deferred value hv hc hvalue he ih =>
    rcases h.get?_cases hv with hv' | ⟨w, hw, rfl⟩
    · apply meaning_eq_some_iff.2
      apply Denotes.deferred value hv' hc fun q w hq => meaning_eq_some_iff.1 (ih q w hq)
      rwa [h.grows.evalIn_eq] at he
    · have hdef := Value.isDeferred_ofDatum w
      rw [Value.isDeferred_iff.2 ⟨_, _, hc⟩] at hdef
      cases hdef

/-- Replacing expressions by what they denote does not change the meaning of a table. -/
theorem Settles.meaning_eq (h : Settles t t') : t'.meaning = t.meaning := by
  funext name
  apply Option.ext
  intro d
  exact ⟨h.extends name d, h.grows.extends name d⟩

theorem Settles.trans (h : Settles t t') (h' : Settles t' t'') : Settles t t'' := by
  refine ⟨h'.outline.trans h.outline, fun name v hv => ?_⟩
  rcases h.value name v hv with hv' | ⟨hd, w, hw, hv'⟩
  · rcases h'.value name v hv' with hv'' | ⟨hd, w, hw, hv''⟩
    · exact .inl hv''
    · exact .inr ⟨hd, w, meaning_eq_some_iff.1 (h.extends _ _ (meaning_eq_some_iff.2 hw)), hv''⟩
  · exact .inr ⟨hd, w, hw, h'.grows.get?_of_known hv' (Value.datum?_ofDatum w)⟩

theorem evalIn_extends {t t' : SymbolTable} (ho : t'.outline = t.outline)
    (h : Extends t.meaning t'.meaning) (he : t.evalIn t.meaning here? scope text = .ok d) :
    t'.evalIn t'.meaning here? scope text = .ok d := by
  have hev : t'.evalIn = t.evalIn := evalIn_congr fun q => by rw [names_congr ho]
  rw [hev]
  exact evalIn_mono (fun q _ => h q) he

/-- Every value that `t` gives, `t'` gives too, the values that `t` holds are held by `t'`, and its
expressions are held by `t'` or have been replaced by their values. -/
structure Leads (t t' : SymbolTable) : Prop where
  outline : t'.outline = t.outline
  gives : Extends t.meaning t'.meaning
  keeps : ∀ name v d, t.get? name = some v → v.content.datum? = some d → t'.get? name = some v
  evaluates : ∀ name v text free, t.get? name = some v → v.content = .deferred text free →
    t'.get? name = some v ∨ ∃ d, t'.get? name = some (.ofDatum d) ∧
      t'.evalIn t'.meaning v.here? (v.scope?.getD (Scope.ofName name)) text = .ok d

theorem Grows.leads (h : Grows t t') : Leads t t' := by
  refine ⟨h.outline, h.extends, fun _ _ _ => h.get?_of_known, fun name v text free hv hc => ?_⟩
  rcases h.value name v hv with hv' | hu | ⟨-, d, hd, hv'⟩
  · exact .inl hv'
  · rw [hc] at hu
    cases hu
  · have hm := meaning_of_deferred hv hc
    rw [meaning_eq_some_iff.2 hd] at hm
    have he := Except.eq_ok_of_toOption hm.symm
    exact .inr ⟨d, hv', evalIn_extends h.outline h.extends he⟩

theorem Leads.trans (h : Leads t t') (h' : Leads t' t'') : Leads t t'' := by
  refine ⟨h'.outline.trans h.outline, h.gives.trans h'.gives,
    fun name v d hv hd => h'.keeps name v d (h.keeps name v d hv hd) hd,
    fun name v text free hv hc => ?_⟩
  rcases h.evaluates name v text free hv hc with hv' | ⟨d, hv', he⟩
  · exact h'.evaluates name v text free hv' hc
  · exact .inr ⟨d, h'.keeps name _ d hv' (Value.datum?_ofDatum d),
      evalIn_extends h'.outline h'.gives he⟩

/-- An expression that a symbol has had decides its value for good. -/
theorem Leads.meaning_of_deferred (h : Leads t t') (hv : t.get? name = some v)
    (hc : v.content = .deferred text free) :
    t'.meaning name =
      (t'.evalIn t'.meaning v.here? (v.scope?.getD (Scope.ofName name)) text).toOption := by
  rcases h.evaluates name v text free hv hc with hv' | ⟨d, hv', he⟩
  · exact SymbolTable.meaning_of_deferred hv' hc
  · rw [he]
    exact meaning_of_known hv' (Value.datum?_ofDatum d)

end SymbolTable
end Z80Asm
