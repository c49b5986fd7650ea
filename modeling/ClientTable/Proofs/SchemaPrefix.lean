import ClientTable.Proofs.KeyFields
import ClientTable.Proofs.Outcomes
import ClientTable.Proofs.Placement

namespace ClientTable

open Attempt

namespace Mapping

theorem Feeds.prefix_of_append {indexField? : Option Nat} {position : Nat}
    {fields others : List Field} {slots more : List Slot} {plans plans' : List FieldPlan}
    (h : Feeds indexField? position fields slots plans)
    (h' : Feeds indexField? position (fields ++ others) (slots ++ more) plans') :
    plans <+: plans' := by
  generalize hwide : slots ++ more = wide at h'
  induction h generalizing plans' wide with
  | nil => exact List.nil_prefix
  | indexed hposition _ ih =>
      cases h' with
      | indexed _ hrest => exact (List.prefix_cons_inj _).mpr (ih wide hwide hrest)
      | stored hother => exact absurd hposition hother
  | stored hposition hlength _ ih =>
      cases h' with
      | indexed hother => exact absurd hother hposition
      | stored _ hlength' hrest =>
          rw [List.append_assoc] at hwide
          obtain ⟨rfl, rfl⟩ := List.append_inj hwide (hlength.trans hlength'.symm)
          exact (List.prefix_cons_inj _).mpr (ih _ rfl hrest)

end Mapping

/-- Stored fields of which some may be missing at the end, but only in files that keep nothing under
the keys of records. -/
def Descriptor.Shortened (descriptors wide : List Descriptor) : Prop :=
  ∃ more, wide = descriptors ++ more ∧ (∀ d ∈ more, 0 < d.cardinality) ∧
    (more = [] ∨ ∀ d ∈ descriptors, d.isCommon = false)

theorem Descriptor.shortened_self (descriptors : List Descriptor) :
    Shortened descriptors descriptors :=
  ⟨[], (List.append_nil _).symm, nofun, Or.inl rfl⟩

namespace Mapping

/-- A mapping of the first fields of a schema, among which is the one that holds the key. -/
structure Shortened (descriptors wideDescriptors : List Descriptor) (m wide : Mapping) : Prop where
  fields : m.fields <+: wide.fields
  keyField : m.keyField? = wide.keyField?
  mapped : ∃ position, m.keyField? = some position ∧ position < m.fields.length
  lookups : ∀ p ∈ m.fields, ∀ slot ∈ p.source.slotList,
    descriptors[slot.descriptor]? = wideDescriptors[slot.descriptor]?
  sameKey : m.needsKey = true →
    descriptors = wideDescriptors ∧ m.keyDescriptor? = wide.keyDescriptor?

variable {schema wideSchema : Schema} {descriptors wideDescriptors : List Descriptor} {column : Nat}
  {hasIndexTable : Bool} {m wide : Mapping}

theorem Built.mapped (hm : Built schema descriptors column hasIndexTable m)
    (hkey : hasIndexTable = true ∨ ∃ p ∈ m.fields, p.startsAt column = true) :
    ∃ position, m.keyField? = some position ∧ position < m.fields.length := by
  rw [hm.keyField]
  cases hasIndexTable with
  | true => exact ⟨column, rfl, hm.length_eq.symm ▸ hm.inside rfl⟩
  | false =>
      obtain ⟨p, hp, hstarts⟩ := hkey.resolve_left Bool.false_ne_true
      cases hfield : m.fields.findIdx? (FieldPlan.startsAt column) with
      | none =>
          rw [List.findIdx?_eq_none_iff] at hfield
          rw [hfield p hp] at hstarts
          cases hstarts
      | some position =>
          exact ⟨position, rfl, (List.findIdx?_eq_some_iff_getElem.mp hfield).1⟩

/-- Where the key is mapped, fields behind the others leave the mapping of those as it is. -/
theorem shortened_of_built (hfields : schema.fields <+: wideSchema.fields)
    (hdescriptors : Descriptor.Shortened descriptors wideDescriptors)
    (hm : Built schema descriptors column hasIndexTable m)
    (hwide : Built wideSchema wideDescriptors column hasIndexTable wide)
    (hkey : hasIndexTable = true ∨ ∃ p ∈ m.fields, p.startsAt column = true) :
    Shortened descriptors wideDescriptors m wide := by
  obtain ⟨others, hothers⟩ := hfields
  obtain ⟨more, rfl, hpositive, hplain⟩ := hdescriptors
  have hfeeds := feeds_of_assign hwide.fields
  rw [← hothers, SlotRun.runsFrom_append, SlotRun.flatten_append] at hfeeds
  have hfront : m.fields <+: wide.fields := hm.feeds.prefix_of_append hfeeds
  obtain ⟨position, hposition, hinside⟩ := hm.mapped hkey
  refine ⟨hfront, ?_, ⟨position, hposition, hinside⟩, ?_, ?_⟩
  · rw [hwide.keyField]
    have hfield := hm.keyField
    cases hasIndexTable with
    | true => exact hfield
    | false =>
        obtain ⟨rest, hrest⟩ := hfront
        rw [hposition] at hfield ⊢
        rw [if_neg Bool.false_ne_true] at hfield ⊢
        rw [← hrest, List.findIdx?_append, ← hfield, Option.some_or]
  · intro p hp slot hslot
    obtain ⟨d, hd, _⟩ := hm.exists_descriptor hp hslot
    rw [List.getElem?_append_left (List.getElem?_eq_some_iff.mp hd).1]
  · intro hneeds
    obtain ⟨p, hp, hslots⟩ := List.any_eq_true.mp hneeds
    obtain ⟨slot, hslot, hcommon⟩ := List.any_eq_true.mp hslots
    obtain ⟨d, hd, hsame⟩ := hm.exists_descriptor hp hslot
    -- A slot of common data is one of the file, which then describes its fields itself.
    have hnone : more = [] := by
      refine hplain.resolve_right fun hall => ?_
      rw [hall d (List.mem_of_getElem? hd), hcommon] at hsame
      cases hsame
    subst hnone
    rw [List.append_nil, hm.keyDescriptor, hwide.keyDescriptor, List.append_nil]
    exact ⟨rfl, rfl⟩

end Mapping

namespace Layout

theorem map_kind_of_place {h : Header} {start : Nat} {requests : List Request}
    {segments : List Segment} (hplace : place h start requests = .ok segments) :
    segments.map Segment.kind = requests.map Prod.fst := by
  induction requests generalizing start segments with
  | nil =>
      cases hplace
      rfl
  | cons request requests ih =>
      obtain ⟨kind, extent⟩ := request
      obtain ⟨length, _, hplace⟩ := bind_eq_ok.mp hplace
      dsimp only at hplace
      split at hplace
      · cases hplace
      · obtain ⟨rest, hrest, hplace⟩ := bind_eq_ok.mp hplace
        cases hplace
        rw [List.map_cons, List.map_cons, ih hrest]

/-- A file that does not describe its fields has no columns outside of its records. -/
theorem absent_of_plan_simple {h : Header} {layout : Layout}
    (hsimple : h.signature = .wdbc ∨ h.signature = .wdb2) (hplan : plan h = .ok layout) :
    Descriptor.hasRelationships layout = false ∧ layout.findShared? .commonData = none := by
  obtain ⟨segments, hplace, rfl⟩ : ∃ segments,
      place h h.headerEnd (simpleRequests h) = .ok segments ∧ layout = ofChain h segments := by
    unfold plan at hplan
    rcases hsimple with hs | hs
    · rw [hs] at hplan
      obtain ⟨segments, hplace, hlayout⟩ := bind_eq_ok.mp hplan
      cases hlayout
      exact ⟨segments, hplace, rfl⟩
    · rw [hs] at hplan
      obtain ⟨segments, hplace, hlayout⟩ := bind_eq_ok.mp hplan
      cases hlayout
      exact ⟨segments, hplace, rfl⟩
  have habsent {kind : SegmentKind} (hkind : kind ∉ [SegmentKind.legacyLookup, .records,
      .stringBlock]) (keep : Segment → Bool) :
      Segment.find? kind (segments.filter keep) = none := by
    apply Segment.find?_of_not_mem
    intro hmem
    obtain ⟨segment, hsegment, rfl⟩ := List.mem_map.mp hmem
    have hrequest := List.mem_map_of_mem (f := Segment.kind) (List.mem_of_mem_filter hsegment)
    rw [map_kind_of_place hplace] at hrequest
    unfold simpleRequests sized at hrequest
    split at hrequest <;> simp_all
  constructor
  · have hsection : Segment.find? .relationshipTable
        (segments.filter fun s => !s.kind.isShared) = none :=
      habsent (by decide) fun s => !s.kind.isShared
    unfold Descriptor.hasRelationships ofChain SectionLayout.find?
    simp only [List.any_cons, List.any_nil, hsection, Option.isSome_none, Bool.or_self]
  · exact habsent (by decide) _

end Layout

namespace Descriptor

theorem readColumns_eq (source : Source) {h : Header} (layout : Layout)
    (hdescribed : ¬ (h.signature = .wdbc ∨ h.signature = .wdb2)) (schema wide : Schema) :
    readColumns source h layout schema = readColumns source h layout wide := by
  unfold readColumns
  cases hs : h.signature with
  | wdbc => exact absurd (Or.inl hs) hdescribed
  | wdb2 => exact absurd (Or.inr hs) hdescribed
  | _ => rfl

theorem consecutive_append (offset : Nat) (fields others : List Field) :
    ∃ more, consecutive offset (fields ++ others) = consecutive offset fields ++ more ∧
      ∀ d ∈ more, 0 < d.cardinality := by
  induction fields generalizing offset with
  | nil =>
      refine ⟨consecutive offset others, rfl, ?_⟩
      induction others generalizing offset with
      | nil => exact nofun
      | cons f others ih =>
          rintro d (_ | ⟨_, hd⟩)
          · exact f.arity_pos
          · exact ih _ d hd
  | cons f fields ih =>
      obtain ⟨more, hmore, hpositive⟩ :=
        ih (min (offset + min (f.kind.bits * f.arity) offsetLimit) offsetLimit)
      exact ⟨more, congrArg _ hmore, hpositive⟩

theorem isCommon_of_mem_consecutive {offset : Nat} {fields : List Field} {d : Descriptor}
    (hd : d ∈ consecutive offset fields) : d.isCommon = false := by
  induction fields generalizing offset with
  | nil => cases hd
  | cons f fields ih =>
      rcases List.mem_cons.mp hd with rfl | hd
      · rfl
      · exact ih hd

theorem on_readAll_of_simple {source : Source} {h : Header} {layout : Layout} {schema : Schema}
    (hsimple : h.signature = .wdbc ∨ h.signature = .wdb2)
    (habsent : hasRelationships layout = false) (handed : Nat) :
    ((readAll source h layout schema).on handed).1 =
      (checkWidth h (consecutive 0 schema.fields)).map fun _ => consecutive 0 schema.fields := by
  have hcolumns : readColumns source h layout schema = pure (consecutive 0 schema.fields) := by
    unfold readColumns
    rcases hsimple with hs | hs <;> rw [hs]
  unfold readAll
  rw [hcolumns, habsent]
  change ((liftM (checkWidth h _) >>= fun _ => pure (consecutive 0 schema.fields) :
    Reading (List Descriptor)).on handed).1 = _
  rw [on_bind, on_lift]
  cases checkWidth h (consecutive 0 schema.fields) <;> rfl

theorem ensures_readAll_of_simple {source : Source} {h : Header} {layout : Layout}
    {schema : Schema} (hsimple : h.signature = .wdbc ∨ h.signature = .wdb2)
    (habsent : hasRelationships layout = false) :
    Ensures (readAll source h layout schema) fun descriptors =>
      descriptors = consecutive 0 schema.fields := by
  intro handed descriptors hread
  have heq := (on_readAll_of_simple hsimple habsent handed).symm.trans hread
  cases hcheck : checkWidth h (consecutive 0 schema.fields) with
  | error e =>
      rw [hcheck] at heq
      cases heq
  | ok =>
      rw [hcheck] at heq
      exact (Except.ok.inj heq).symm

/-- The stored fields under a schema and under a longer one. They are the same where the file has
common data. -/
theorem shortened_of_readAll {source : Source} {h : Header} {layout : Layout}
    {schema wide : Schema} {descriptors wideDescriptors : List Descriptor}
    (hplan : Layout.plan h = .ok layout) (hfields : schema.fields <+: wide.fields)
    (hread : (readAll source h layout schema).outcome = .ok descriptors)
    (hwide : (readAll source h layout wide).outcome = .ok wideDescriptors) :
    Shortened descriptors wideDescriptors ∧
      (descriptors = wideDescriptors ∨ layout.findShared? .commonData = none) := by
  by_cases hsimple : h.signature = .wdbc ∨ h.signature = .wdb2
  · obtain ⟨habsent, hcommon⟩ := Layout.absent_of_plan_simple hsimple hplan
    obtain rfl := ensures_readAll_of_simple hsimple habsent 0 _ hread
    obtain rfl := ensures_readAll_of_simple hsimple habsent 0 _ hwide
    obtain ⟨others, hothers⟩ := hfields
    obtain ⟨more, hmore, hpositive⟩ := consecutive_append 0 schema.fields others
    rw [← hothers]
    refine ⟨⟨more, hmore, hpositive, Or.inr ?_⟩, Or.inr hcommon⟩
    exact fun d hd => isCommon_of_mem_consecutive hd
  · have hsame : readAll source h layout schema = readAll source h layout wide := by
      unfold readAll
      rw [readColumns_eq source layout hsimple schema wide]
    rw [hsame, hwide] at hread
    cases hread
    exact ⟨shortened_self _, Or.inl rfl⟩

end Descriptor

end ClientTable
