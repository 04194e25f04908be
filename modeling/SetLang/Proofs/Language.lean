import SetLang.Language
import SetLang.Proofs.Datatype

/-! What the assembly of a language guarantees. Its datatypes have no fault and distinct names, and
extensions that belong to a datatype are the datatype's own. -/

namespace SetLang

/-- Drafts that are made by registration. Extensions that are registered on their own have a typing
rule; those of datatypes come with their datatypes. -/
inductive LanguageDraft.Drafted : LanguageDraft → Prop
  | core (v : Version) : Drafted ⟨v, [], [], .core⟩
  | grammar {l : LanguageDraft} (g : GrammarDraft) : Drafted l → Drafted { l with grammar := g }
  | configure {l : LanguageDraft} (c : GrammarConfiguration) : Drafted l → Drafted (l.configure c).1
  | register {l l' : LanguageDraft} {e : Extension} : Drafted l → e.role? = none →
    l.register e = .ok l' → Drafted l'
  | datatype {l : LanguageDraft} {d : Datatype} : Drafted l → d.check = .ok () →
    Drafted (l.registerDatatype d).1

def Datatype.applied (d : Datatype) : Extension := .ofRole d d.name d.params.length .typeConstructor

theorem Datatype.eq_applied {d : Datatype} {e : Extension} (he : e ∈ d.extensions)
    (hrole : e.typing = .ofDatatype d .typeConstructor) : e = d.applied := by
  unfold extensions at he
  rcases List.mem_cons.1 he with rfl | he
  · rfl
  · obtain ⟨⟨c, i⟩, -, he⟩ := List.mem_flatMap.1 he
    rcases List.mem_cons.1 he with rfl | he
    · cases hrole
    · obtain ⟨⟨a, j⟩, -, he⟩ := List.mem_filterMap.1 he
      obtain ⟨name, -, rfl⟩ := Option.map_eq_some_iff.1 he
      cases hrole

/-- Datatypes without fault and of distinct names, and extensions of distinct ids that are theirs or have a
rule. -/
structure Registered (extensions : List Extension) (datatypes : List Datatype) : Prop where
  genuine : ∀ e ∈ extensions, e.Genuine
  unique : ∀ e ∈ extensions, ∀ f ∈ extensions, e.id = f.id → e = f
  checked : ∀ d ∈ datatypes, d.check = .ok ()
  distinct : ∀ d ∈ datatypes, ∀ d' ∈ datatypes, d.name = d'.name → d = d'
  known : ∀ d ∈ datatypes, d.applied ∈ extensions

namespace LanguageDraft

variable {l l' : LanguageDraft} {e e' : Extension} {d : Datatype}

theorem mem_place {es : List Extension} : e' ∈ place e es ↔ e' = e ∨ e' ∈ es := by
  induction es with
  | nil => simp [place]
  | cons f es ih =>
    unfold place
    split_ifs
    · simp
    · simp only [List.mem_cons, ih]
      tauto

/-- A registered extension is new, and nothing but the grammar changes besides. -/
theorem of_register (h : l.register e = .ok l') : (∀ f ∈ l.extensions, f.id ≠ e.id) ∧
    l'.extensions = place e l.extensions ∧ l'.datatypes = l.datatypes := by
  unfold register at h
  cases hdup : l.extensions.any (·.id == e.id) with
  | true =>
    rw [hdup] at h
    cases h
  | false =>
    have hnew : ∀ f ∈ l.extensions, f.id ≠ e.id := by simpa using hdup
    cases hlacks : lacksPatterns e with
    | true =>
      rw [hdup, hlacks] at h
      cases h
    | false =>
      cases hop : declareOperator l.grammar e with
      | error g =>
        rw [hdup, hlacks, hop] at h
        cases h
      | ok g =>
        rw [hdup, hlacks, hop] at h
        cases h
        exact ⟨hnew, rfl, rfl⟩

theorem registered_register (h : Registered l.extensions l.datatypes) (he : e.Genuine)
    (hr : l.register e = .ok l') : Registered l'.extensions l'.datatypes := by
  obtain ⟨hnew, hext, hdata⟩ := of_register hr
  rw [hext, hdata]
  refine ⟨fun f hf => ?_, fun f hf g hg heq => ?_, h.checked, h.distinct, fun d hd => ?_⟩
  · rcases mem_place.1 hf with rfl | hf
    exacts [he, h.genuine f hf]
  · rcases mem_place.1 hf with rfl | hf' <;> rcases mem_place.1 hg with rfl | hg'
    · rfl
    · exact absurd heq.symm (hnew g hg')
    · exact absurd heq (hnew f hf')
    · exact h.unique f hf' g hg' heq
  · exact mem_place.2 (.inr (h.known d hd))

/-- Registration of several extensions adds to the extensions alone. If it goes through, then the ids of
all of them were new and are known afterwards. -/
theorem registered_registerAll (es : List Extension) (h : Registered l.extensions l.datatypes)
    (hes : ∀ e ∈ es, e.Genuine) :
    Registered (l.registerAll es).1.extensions (l.registerAll es).1.datatypes ∧
      (l.registerAll es).1.datatypes = l.datatypes ∧
      (∀ f ∈ l.extensions, f ∈ (l.registerAll es).1.extensions) ∧
      ((l.registerAll es).2 = none → ∀ e ∈ es, (∀ f ∈ l.extensions, f.id ≠ e.id) ∧
        e ∈ (l.registerAll es).1.extensions) := by
  induction es generalizing l with
  | nil => exact ⟨h, rfl, fun _ hf => hf, fun _ _ he => by cases he⟩
  | cons e es ih =>
    rw [List.forall_mem_cons] at hes
    unfold registerAll
    cases hr : l.register e with
    | error err => exact ⟨h, rfl, fun _ hf => hf, fun hnone => by cases hnone⟩
    | ok l' =>
      obtain ⟨hnew, hext, hdata⟩ := of_register hr
      have hsub : ∀ f ∈ l.extensions, f ∈ l'.extensions := fun f hf =>
        hext ▸ mem_place.2 (.inr hf)
      obtain ⟨hreg, hdata', hsub', hall⟩ := ih (registered_register h hes.1 hr) hes.2
      refine ⟨hreg, hdata'.trans hdata, fun f hf => hsub' f (hsub f hf), fun hnone e' he' => ?_⟩
      rcases List.mem_cons.1 he' with rfl | he'
      · exact ⟨hnew, hsub' _ (hext ▸ mem_place.2 (.inl rfl))⟩
      · obtain ⟨hnew', hmem⟩ := hall hnone e' he'
        exact ⟨fun f hf => hnew' f (hsub f hf), hmem⟩

theorem Drafted.registered (h : l.Drafted) : Registered l.extensions l.datatypes := by
  induction h with
  | core v =>
    constructor <;> intro _ h <;> cases h
  | grammar g _ ih => exact ih
  | configure c _ ih => exact ih
  | register _ hrole hr ih =>
    refine registered_register ih (fun d role htyping => ?_) hr
    simp [Extension.role?, htyping] at hrole
  | @datatype l d _ hd ih =>
    obtain ⟨hreg, hdata, hsub, hall⟩ := registered_registerAll d.extensions ih fun e he =>
      Extension.genuine_of_mem_extensions hd he
    unfold registerDatatype
    rcases hr : l.registerAll d.extensions with ⟨l', _ | err⟩
    · rw [hr] at hreg hdata hsub hall
      obtain ⟨hnew, hmem⟩ := hall rfl _ List.mem_cons_self
      -- the type constructor has the name of the datatype as its id
      have hfresh : ∀ d' ∈ l'.datatypes, d'.name ≠ d.name := fun d' hd' heq => by
        exact hnew _ (ih.known d' (hdata ▸ hd')) heq
      refine ⟨hreg.genuine, hreg.unique, ?_, ?_, ?_⟩
      · intro d' hd'
        rcases List.mem_append.1 hd' with hd' | hd'
        · exact hreg.checked d' hd'
        · obtain rfl := List.mem_singleton.1 hd'
          exact hd
      · intro d₁ h₁ d₂ h₂ heq
        rcases List.mem_append.1 h₁ with m₁ | m₁ <;> rcases List.mem_append.1 h₂ with m₂ | m₂
        · exact hreg.distinct d₁ m₁ d₂ m₂ heq
        · obtain rfl := List.mem_singleton.1 m₂
          exact absurd heq (hfresh d₁ m₁)
        · obtain rfl := List.mem_singleton.1 m₁
          exact absurd heq.symm (hfresh d₂ m₂)
        · rw [List.mem_singleton.1 m₁, List.mem_singleton.1 m₂]
      · intro d' hd'
        rcases List.mem_append.1 hd' with hd' | hd'
        · exact hreg.known d' hd'
        · obtain rfl := List.mem_singleton.1 hd'
          exact hmem
    · rw [hr] at hreg
      exact hreg

end LanguageDraft

/-- What is accepted: a registered extension that has the kind and the children that it asks for. -/
theorem Language.accept_eq_ok_iff {l : Language} {ext : Extension} {kind : ExtensionKind} {m n : Nat} :
    l.accept ext kind m n = .ok () ↔ (l.extension? ext.id).isSome ∧ ext.kind = kind ∧
      ext.arity.expressions.admits m ∧ ext.arity.predicates.admits n := by
  unfold accept
  cases l.extension? ext.id with
  | none => simp [bind, Except.bind]
  | some e =>
    by_cases hkind : ext.kind = kind <;> cases ext.arity.expressions.admits m <;>
      cases ext.arity.predicates.admits n <;> simp [hkind, bind, Except.bind, pure, Except.pure]

/-- The language without datatypes keeps every id under which no datatype's extension is registered. -/
theorem Language.isSome_extension?_withoutDatatypes {l : Language} {id : String} (h : (l.extension? id).isSome)
    (hrole : ∀ e ∈ l.extensions, e.id = id → e.role? = none) : (l.withoutDatatypes.extension? id).isSome := by
  obtain ⟨e, he, hid⟩ := List.find?_isSome.1 h
  refine List.find?_isSome.2 ⟨e, List.mem_filter.2 ⟨he, ?_⟩, hid⟩
  rw [hrole e he (by simpa using hid)]
  rfl

namespace Registered

variable {l : Language} {d : Datatype} {e : Extension}

theorem extension? (h : Registered l.extensions l.datatypes) (he : e ∈ l.extensions) :
    l.extension? e.id = some e := by
  unfold Language.extension?
  cases hfind : l.extensions.find? (·.id == e.id) with
  | none => exact absurd (List.find?_eq_none.1 hfind e he) (by simp)
  | some f => rw [h.unique f (List.mem_of_find?_eq_some hfind) e he (by simpa using List.find?_some hfind)]

theorem typeConstructor (h : Registered l.extensions l.datatypes) (hd : d.applied ∈ l.extensions) :
    l.typeConstructor d = .ok d.applied := by
  have hfind : l.extension? d.name = some d.applied := h.extension? hd
  unfold Language.typeConstructor
  rw [hfind]
  rfl

theorem accept_applied (h : Registered l.extensions l.datatypes) (hd : d.applied ∈ l.extensions) :
    l.accept d.applied .expression d.params.length 0 = .ok () := by
  rw [Language.accept_eq_ok_iff, h.extension? hd]
  simp [Datatype.applied, Extension.ofRole, ChildCount.admits]

end Registered

def Language.Assembled (l : Language) : Prop :=
  ∃ draft : LanguageDraft, draft.Drafted ∧ draft.build = .ok l

theorem Language.Assembled.registered {l : Language} (h : l.Assembled) :
    Registered l.extensions l.datatypes := by
  obtain ⟨draft, hdraft, hbuild⟩ := h
  unfold LanguageDraft.build at hbuild
  cases hg : draft.grammar.build with
  | error e =>
    rw [hg] at hbuild
    cases hbuild
  | ok g =>
    rw [hg] at hbuild
    cases hbuild
    exact hdraft.registered

end SetLang
