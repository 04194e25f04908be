import SetLang.Proofs.Encoding.Injective
import SetLang.Proofs.Encoding.Plain
import SetLang.Proofs.Encoding.Records

/-! What a failed call leaves. What was kept before stays, and nothing that the call did is undone: a
representation whose creation fails is not kept, but its type has got a name, and this name stays given out. The
environment of the target shows it, so that one can tell the state from the one before the call. -/

namespace SetLang

variable {S S' S₁ : EncodingState} {held : Set Formula} {i : Instance} {d : Datatype}
  {args params : List Ty} {name : String} {e : Fault EncodingError}

namespace Encode

theorem mapM_eq_pure {α : Type} {xs : List α} {f : α → Encode α} (h : ∀ x ∈ xs, f x = pure x) :
    xs.mapM f = pure xs := by
  induction xs with
  | nil => rfl
  | cons x xs ih =>
    rw [List.forall_mem_cons] at h
    rw [List.mapM_cons, h.1, ih h.2, pure_bind, pure_bind]

theorem run_targetEnvironment (h : ∀ x ∈ S.encoding.env.entries, x.2.Plain) : targetEnvironment.run S =
    (.ok ((Environment.empty.insertAll S.encoding.env.entries).extend S.encoding.allocated), S) := by
  have hentries : S.encoding.env.entries.mapM (fun x => do return (x.1, ← type x.2) : _ → Encode _) =
      pure S.encoding.env.entries :=
    mapM_eq_pure fun x hx => by rw [type_eq_pure (h x hx), pure_bind]
  unfold targetEnvironment
  rw [run_bind_ok (run_current S), hentries, pure_bind, run_bind_ok (run_current S)]
  rfl

/-- When a representation is created, its type is named first. Whether the creation succeeds or not, the state
after it is a later one than that after the naming. -/
theorem later_of_represent (hS : S.Sound held)
    (hparams : List.Forall₂ (fun _ p : Ty => p.Plain ∧ True) args params) : ∃ base,
      ((allocate base Ty.givenSet).run S).2.Later ((d.represent args params).run S).2 := by
  obtain ⟨n, formals, cs⟩ := d
  have hplain : ∀ t ∈ params, t.Plain := fun t ht => by
    obtain ⟨_, -, h⟩ := forall₂_exists_right hparams.flip ht
    exact h.1
  obtain ⟨base, rest, heq, hrest⟩ := steady_soundness.create_named ⟨n, formals, cs⟩
    (constructorImages cs) hparams.length_eq.symm hplain
  obtain ⟨held₁, -, -, hS₁, -⟩ := steady_soundness.allocate base Ty.givenSet hS
  refine ⟨base, ?_⟩
  have hnamed : (freshGiven base).run S =
    (.ok (.given (freshName S.encoding.used base)), ((allocate base Ty.givenSet).run S).2) := rfl
  rw [Datatype.represent, heq, run_bind_ok hnamed]
  obtain ⟨-, -, hlater, -⟩ := hrest _ _ held₁ (fun S' held' _ _ => preserves_constructorImages
    imaging_soundness cs _ S' held' ⟨loose_soundness _, rfl, hparams⟩) hS₁
  exact hlater

theorem get?_targetEnvironment (h : S.encoding.Records) (henv : ∀ x ∈ S.encoding.env.entries, x.2.Plain)
    (hname : name ∉ S.encoding.used) :
    ∃ E, targetEnvironment.run S = (.ok E, S) ∧ E.get? name = none := by
  refine ⟨_, run_targetEnvironment henv, ?_⟩
  have hentries : ∀ u, (name, u) ∈ S.encoding.env.entries → u = .boolean := fun u hu =>
    absurd (h.reserved (List.mem_append_left _ (List.mem_map_of_mem hu))) hname
  rw [Environment.get?_extend h.sorted, Environment.get?_insertAll_of_forall hentries, if_neg]
  · rw [h.get?_eq_none hname]
    rfl
  · exact fun hmem => hname (h.reserved (List.mem_append_left _ hmem))

end Encode

namespace EncodingState

variable {source : Factory}

/-- Whether an instance that is registered gets a representation or not, its type is named as soon as its type
arguments are encoded. -/
theorem Reached.later_of_representation (h : Reached source S held)
    (hnew : S.encoding.representation? i = none) (hreg : S.encoding.source.hasDatatype i.datatype = true)
    (hargs : (Encode.types i.args).run S = (.ok params, S₁)) : ∃ base, S.Later S₁ ∧
      ((Encode.allocate base Ty.givenSet).run S₁).2.Later ((Encode.representation i).run S).2 := by
  obtain ⟨held₁, -, hlater, hS₁, hparams⟩ :=
    Encode.preserves_types Encode.imaging_soundness i.args S held h.sound.1
  rw [hargs] at hlater hS₁ hparams
  obtain ⟨base, hrepresent⟩ := Encode.later_of_represent (d := i.datatype) hS₁ (hparams params rfl)
  refine ⟨base, hlater, hrepresent.trans ?_⟩
  have hrun : (Encode.representation i).run S = (do
      let r ← i.datatype.represent i.args params
      Encode.update fun t => { t with representations := t.representations ++ [r] }
      return r : Encode Representation).run S₁ := by
    unfold Encode.representation Encode.represented
    rw [run_bind_ok (Encode.run_current S), hnew]
    dsimp only
    rw [hreg]
    simp only [Bool.not_true, Bool.false_eq_true, if_false, bind_assoc]
    exact run_bind_ok hargs
  rw [hrun, run_bind]
  rcases hcreate : (i.datatype.represent i.args params).run S₁ with ⟨e | r, S₂⟩
  · exact .refl S₂
  · exact S₂.later_add r

/-- What a failed call leaves, where an instance that is registered gets no representation, though its type arguments
are encoded: all representations and all names that there were, and one more name, that of the type of the instance,
which is declared in the environment of the target from then on. -/
theorem Reached.leaves_name (h : Reached source S held)
    (hnew : S.encoding.representation? i = none) (hreg : S.encoding.source.hasDatatype i.datatype = true)
    (hargs : (Encode.types i.args).run S = (.ok params, S₁))
    (hfail : (Encode.representation i).run S = (.error e, S')) :
    S.encoding.representations <+: S'.encoding.representations ∧
    (∀ x T, S.encoding.allocated.get? x = some T → S'.encoding.allocated.get? x = some T) ∧
    ∃ name, S.encoding.allocated.get? name = none ∧
      S'.encoding.allocated.get? name = some (Ty.givenSet name) ∧
      ((∀ x ∈ S.encoding.env.entries, x.2.Plain) → ∃ E E',
        Encode.targetEnvironment.run S = (.ok E, S) ∧ Encode.targetEnvironment.run S' = (.ok E', S') ∧
        E.get? name = none ∧ E'.get? name = some (Ty.givenSet name)) := by
  obtain ⟨base, hlater, hrest⟩ := h.later_of_representation hnew hreg hargs
  rw [hfail] at hrest
  set S₂ := ((Encode.allocate base Ty.givenSet).run S₁).2 with hS₂
  have hquiet : S₁.Quiet S₂ := ⟨.refl _, rfl, rfl, rfl, ⟨_, .gave rfl⟩, rfl⟩
  have hbefore := hlater.trans hquiet.later
  have hrecords := h.records
  have hrecords₂ := hbefore.records hrecords
  have hkeeps := (hbefore.trans hrest).names.allocated hrecords.sorted hrecords.taken
  have hfree : freshName S₁.encoding.used base ∉ S.encoding.used := fun hmem =>
    freshName_notMem _ _ (hlater.used hmem)
  have hnamed : S₂.encoding.allocated.get? (freshName S₁.encoding.used base) =
      some (Ty.givenSet (freshName S₁.encoding.used base)) := by
    rw [hS₂]
    exact Environment.get?_insert.trans (if_pos rfl)
  have hname := (hrest.names.allocated hrecords₂.sorted hrecords₂.taken).2.2 _ _ hnamed
  refine ⟨(hbefore.trans hrest).representations, hkeeps.2.2, _, hrecords.get?_eq_none hfree, hname,
    fun henv => ?_⟩
  obtain ⟨E, hE, hnone⟩ := Encode.get?_targetEnvironment hrecords henv hfree
  refine ⟨E, _, hE, Encode.run_targetEnvironment ((hbefore.trans hrest).env ▸ henv), hnone, ?_⟩
  rw [Environment.get?_extend hkeeps.1, hname]
  rfl

end EncodingState

def wallet : Datatype :=
  ⟨"W", [], [⟨"w", [⟨some "x", .data coin []⟩, ⟨some "y", .data note []⟩]⟩]⟩

namespace Wallet

def draft : LanguageDraft := (LanguageDraft.registerDatatype Coin.draft wallet).1

/-- A factory in which the coin and the wallet are registered, but not the note. -/
def source : Factory := ⟨⟨.v2, draft.extensions, draft.datatypes, ⟨[], [], [], []⟩⟩, 0⟩

def start : EncodingState := ⟨⟨#[], #[], 1⟩, ⟨source, ⟨source.withoutDatatypes, 0⟩, .empty, [], .empty, []⟩⟩

def asked : EncodingState := ((Encode.representation ⟨wallet, []⟩).run start).2

/-- The wallet is refused for the sake of the note. Its name stays given out, that of the destructor which was made
by then too, and the coin stays represented, so that it adds an axiom. -/
theorem leaves_names_wallet :
    ((Encode.representation ⟨wallet, []⟩).run start).1.map (fun _ => ()) =
      .error (.error (.unknownDatatype "E")) ∧
    asked.encoding.allocated.names = ["D", "W", "b", "c", "x"] ∧
    (Encode.axioms.run start).1.toOption.map List.length = some 0 ∧
    (Encode.axioms.run asked).1.toOption.map List.length = some 1 := by
  decide +kernel

end Wallet
end SetLang
