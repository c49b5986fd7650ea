import ClientTable.Proofs.Attempt
import ClientTable.Proofs.Reading

namespace ClientTable

namespace Reading

variable {α β : Type}

@[simp]
theorem outcome_pure (a : α) : (pure a : Reading α).outcome = .ok a :=
  rfl

@[simp]
theorem outcome_throw (e : Error) : (throw e : Reading α).outcome = .error e :=
  rfl

@[simp]
theorem outcome_lift (x : Except Error α) : (liftM x : Reading α).outcome = x :=
  rfl

theorem outcome_bind {m : Reading α} {f : α → Reading β}
    (hf : ∀ a, Matches (fun _ => False) (f a) (f a)) :
    (m >>= f).outcome = m.outcome >>= fun a => (f a).outcome := by
  unfold outcome
  rw [Attempt.on_bind]
  rcases m.on 0 with ⟨_ | a, count⟩
  · rfl
  · exact (hf a).on_eq count

theorem exists_on_of_outcome {m : Reading α} {a : α} (h : m.outcome = .ok a) :
    ∃ count, m.on 0 = (.ok a, count) :=
  ⟨(m.on 0).2, Prod.ext h rfl⟩

end Reading

open Attempt Reading

namespace Metadata

variable (source : Source) (schema : Schema)

theorem outcome_readPopulated (h : Header) :
    (readPopulated source h schema).outcome = do
      let layout ← Layout.plan h
      let descriptors ← (Descriptor.readAll source h layout schema).outcome
      let mappings ← sectionMappings h layout descriptors schema
      return ⟨h.signature, some h, layout, descriptors, schema, mappings⟩ := by
  unfold readPopulated
  rw [outcome_bind fun layout =>
    (Descriptor.matches_readAll source.matches_self h layout schema).bind fun _ =>
      (matches_lift _).bind fun _ => matches_pure _]
  refine congrArg _ (funext fun layout => ?_)
  rw [outcome_bind fun _ => (matches_lift _).bind fun _ => matches_pure _]
  refine congrArg _ (funext fun descriptors => ?_)
  rw [outcome_bind fun _ => matches_pure _]
  rfl

theorem outcome_read :
    (read source schema).outcome = (source.parse parseStart).outcome >>= fun
      | (signature, none) => .ok (ofEmptyFile signature schema)
      | (_, some h) => (readPopulated source h schema).outcome := by
  unfold read
  rw [outcome_bind]
  · refine congrArg _ (funext fun start => ?_)
    obtain ⟨signature, _ | h⟩ := start <;> rfl
  · rintro ⟨signature, _ | h⟩
    · exact matches_pure _
    · exact matches_readPopulated source.matches_self h schema

variable {source schema}

/-- A file that opens has no records, or everything that its header announces is there. -/
theorem cases_of_outcome_read {m : Metadata} (h : (read source schema).outcome = .ok m) :
    (∃ signature, (source.parse parseStart).outcome = .ok (signature, none) ∧
      m = ofEmptyFile signature schema) ∨
    ∃ signature header layout descriptors mappings,
      (source.parse parseStart).outcome = .ok (signature, some header) ∧
      Layout.plan header = .ok layout ∧
      (Descriptor.readAll source header layout schema).outcome = .ok descriptors ∧
      sectionMappings header layout descriptors schema = .ok mappings ∧
      m = ⟨header.signature, some header, layout, descriptors, schema, mappings⟩ := by
  rw [outcome_read] at h
  obtain ⟨⟨signature, _ | header⟩, hstart, h⟩ := bind_eq_ok.mp h
  · cases h
    exact Or.inl ⟨signature, hstart, rfl⟩
  · dsimp only at h
    rw [outcome_readPopulated] at h
    obtain ⟨layout, hplan, h⟩ := bind_eq_ok.mp h
    obtain ⟨descriptors, hdescriptors, h⟩ := bind_eq_ok.mp h
    obtain ⟨mappings, hmappings, h⟩ := bind_eq_ok.mp h
    cases h
    exact Or.inr ⟨signature, header, layout, descriptors, mappings, hstart, hplan, hdescriptors,
      hmappings, rfl⟩

end Metadata

namespace Reader

theorem outcome_ofStream (stream : Stream) (schema : Schema) (options : Options) :
    (ofStream stream schema options).outcome =
      (Source.ofStream stream options.copyToMemory).outcome >>= fun source =>
        (Metadata.read source schema).outcome.map fun m => ⟨source, m, options⟩ := by
  unfold ofStream
  rw [outcome_bind fun source => (Metadata.matches_read source.matches_self schema).bind fun _ =>
    matches_pure _]
  refine congrArg _ (funext fun source => ?_)
  rw [outcome_bind fun _ => matches_pure _]
  cases (Metadata.read source schema).outcome <;> rfl

end Reader

end ClientTable
