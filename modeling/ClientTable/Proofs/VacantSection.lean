import ClientTable.Proofs.MovedLayout

/-!
A vacant section among the others: one that is announced with no records and no tables. In a file
whose sections have no offset maps it changes nothing, as long as the schema can be fed without an
index table. With offset maps it does not have what a section needs.
-/

namespace ClientTable

open Attempt

/-- The second list is the first with a new element somewhere, the others being related. -/
inductive Inserts {α β : Type} (R : α → β → Prop) (new : β → Prop) : List α → List β → Prop
  | here {b : β} {xs : List α} {ys : List β} : new b → List.Forall₂ R xs ys →
      Inserts R new xs (b :: ys)
  | there {a : α} {b : β} {xs : List α} {ys : List β} : R a b → Inserts R new xs ys →
      Inserts R new (a :: xs) (b :: ys)

namespace Inserts

instance decidable {α β : Type} {R : α → β → Prop} {new : β → Prop} [∀ a b, Decidable (R a b)]
    [DecidablePred new] : (xs : List α) → (ys : List β) → Decidable (Inserts R new xs ys)
  | _, [] => isFalse nofun
  | [], b :: ys =>
      decidable_of_iff (new b ∧ List.Forall₂ R [] ys)
        ⟨fun ⟨hb, hrest⟩ => here hb hrest, fun | here hb hrest => ⟨hb, hrest⟩⟩
  | a :: xs, b :: ys =>
      have : Decidable (Inserts R new xs ys) := decidable xs ys
      decidable_of_iff ((new b ∧ List.Forall₂ R (a :: xs) ys) ∨ (R a b ∧ Inserts R new xs ys))
        ⟨fun
          | Or.inl ⟨hb, hrest⟩ => here hb hrest
          | Or.inr ⟨hab, hrest⟩ => there hab hrest,
        fun
          | here hb hrest => Or.inl ⟨hb, hrest⟩
          | there hab hrest => Or.inr ⟨hab, hrest⟩⟩

variable {α β γ : Type} {R : α → β → Prop} {new : β → Prop} {xs : List α} {ys : List β}

theorem exists_new (h : Inserts R new xs ys) : ∃ b ∈ ys, new b := by
  induction h with
  | here hb _ => exact ⟨_, List.mem_cons_self .., hb⟩
  | there _ _ ih =>
      obtain ⟨b, hmem, hb⟩ := ih
      exact ⟨b, List.mem_cons_of_mem _ hmem, hb⟩

theorem imp {S : α → β → Prop} {new' : β → Prop} (h : Inserts R new xs ys)
    (hold : ∀ a ∈ xs, ∀ b ∈ ys, R a b → S a b) (hnew : ∀ b, new b → new' b) :
    Inserts S new' xs ys := by
  induction h with
  | @here b xs ys hb hrest =>
      obtain ⟨hlength, hall⟩ := List.forall₂_iff_zip.mp hrest
      refine here (hnew b hb) (List.forall₂_iff_zip.mpr ⟨hlength, fun {a c} hac => ?_⟩)
      obtain ⟨ha, hc⟩ := List.of_mem_zip hac
      exact hold a ha c (List.mem_cons_of_mem _ hc) (hall hac)
  | there hab _ ih =>
      refine there (hold _ (List.mem_cons_self ..) _ (List.mem_cons_self ..) hab) (ih ?_)
      exact fun a ha b hb => hold a (List.mem_cons_of_mem _ ha) b (List.mem_cons_of_mem _ hb)

theorem map_eq_of_forall₂ {f : α → γ} {g : β → γ}
    (h : List.Forall₂ (fun a b => g b = f a) xs ys) : ys.map g = xs.map f := by
  induction h with
  | nil => rfl
  | cons hab _ ih => rw [List.map_cons, List.map_cons, hab, ih]

theorem flatMap_eq {f : α → List γ} {g : β → List γ}
    (h : Inserts (fun a b => g b = f a) (fun b => g b = []) xs ys) :
    ys.flatMap g = xs.flatMap f := by
  induction h with
  | here hb hrest =>
      rw [List.flatMap_cons, hb, List.nil_append, List.flatMap_def, List.flatMap_def,
        map_eq_of_forall₂ hrest]
  | there hab _ ih => rw [List.flatMap_cons, List.flatMap_cons, hab, ih]

theorem any_eq {p : α → Bool} {q : β → Bool}
    (h : Inserts (fun a b => q b = p a) (fun b => q b = false) xs ys) : ys.any q = xs.any p := by
  induction h with
  | @here b xs ys hb hrest =>
      have hsame : (ys.map q).any id = (xs.map p).any id := by rw [map_eq_of_forall₂ hrest]
      rw [List.any_map, List.any_map] at hsame
      rw [List.any_cons, hb, Bool.false_or]
      exact hsame
  | there hab _ ih => rw [List.any_cons, List.any_cons, hab, ih]

theorem exists_mapM_eq_ok {f : α → Except Error γ} {g : β → Except Error γ} {c : γ}
    (h : Inserts (fun a b => g b = f a) (fun b => g b = .ok c) xs ys) {results : List γ}
    (hresults : xs.mapM f = .ok results) : ∃ results', ys.mapM g = .ok results' := by
  induction h generalizing results with
  | @here b xs ys hb hrest =>
      -- Behind the new element both lists give the same results.
      have hsame : (ys.map g).mapM id = (xs.map f).mapM id := by rw [map_eq_of_forall₂ hrest]
      rw [List.mapM_map, List.mapM_map] at hsame
      have hsame : ys.mapM g = xs.mapM f := hsame
      rw [List.mapM_cons, hb, hsame, hresults]
      exact ⟨_, rfl⟩
  | there hab _ ih =>
      rw [List.mapM_cons] at hresults ⊢
      obtain ⟨first, hfirst, hresults⟩ := bind_eq_ok.mp hresults
      obtain ⟨others, hothers, _⟩ := bind_eq_ok.mp hresults
      obtain ⟨others', hothers'⟩ := ih hothers
      rw [hab, hfirst, hothers']
      exact ⟨_, rfl⟩

theorem mapM_eq_error {f : α → Except Error γ} {g : β → Except Error γ} {e : Error}
    (h : Inserts (fun a b => g b = f a) (fun b => g b = .error e) xs ys) {results : List γ}
    (hresults : xs.mapM f = .ok results) : ys.mapM g = .error e := by
  induction h generalizing results with
  | here hb _ =>
      rw [List.mapM_cons, hb]
      rfl
  | there hab _ ih =>
      rw [List.mapM_cons] at hresults ⊢
      obtain ⟨first, hfirst, hresults⟩ := bind_eq_ok.mp hresults
      obtain ⟨others, hothers, _⟩ := bind_eq_ok.mp hresults
      rw [hab, hfirst, ih hothers]
      rfl

end Inserts

/-- The number of bytes that the announcement of a section takes up. -/
def SectionHeader.size : Nat :=
  36

/-- The announcement of a section without records and without tables, wherever it may stand. -/
structure SectionHeader.Vacant (s : SectionHeader) : Prop where
  recordCount : s.recordCount = 0
  stringTableSize : s.stringTableSize = 0
  copyTableSize : s.copyTableSize = 0
  offsetMapOffset : s.offsetMapOffset = 0
  idListSize : s.idListSize = 0
  relationshipDataSize : s.relationshipDataSize = 0

instance (s : SectionHeader) : Decidable s.Vacant :=
  decidable_of_iff (s.recordCount = 0 ∧ s.stringTableSize = 0 ∧ s.copyTableSize = 0 ∧
      s.offsetMapOffset = 0 ∧ s.idListSize = 0 ∧ s.relationshipDataSize = 0)
    ⟨fun ⟨h₁, h₂, h₃, h₄, h₅, h₆⟩ => ⟨h₁, h₂, h₃, h₄, h₅, h₆⟩,
      fun ⟨h₁, h₂, h₃, h₄, h₅, h₆⟩ => ⟨h₁, h₂, h₃, h₄, h₅, h₆⟩⟩

/-- A header with the announcement of a vacant section somewhere among those of another header,
whose sections stand later by as many bytes as the announcement takes up. -/
structure Header.Widens (h h' : Header) (vacant : SectionHeader) : Prop where
  agrees : h.Agrees h'
  headerEnd : h'.headerEnd = h.headerEnd + SectionHeader.size
  isVacant : vacant.Vacant
  sections : Inserts (SectionHeader.Moved SectionHeader.size) (· = vacant) h.sections h'.sections

instance (h h' : Header) (vacant : SectionHeader) : Decidable (h.Widens h' vacant) :=
  decidable_of_iff (h.Agrees h' ∧ h'.headerEnd = h.headerEnd + SectionHeader.size ∧
      vacant.Vacant ∧
      Inserts (SectionHeader.Moved SectionHeader.size) (· = vacant) h.sections h'.sections)
    ⟨fun ⟨h₁, h₂, h₃, h₄⟩ => ⟨h₁, h₂, h₃, h₄⟩, fun ⟨h₁, h₂, h₃, h₄⟩ => ⟨h₁, h₂, h₃, h₄⟩⟩

/-- The layout of a vacant section without an offset map. -/
def SectionLayout.vacant (index start : Nat) : SectionLayout :=
  ⟨index, 0, (SegmentKind.records :: Section.tableKinds).map fun kind => ⟨kind, start, 0⟩⟩

def SectionLayout.IsVacant (s : SectionLayout) : Prop :=
  ∃ index start, s = .vacant index start

theorem SectionLayout.IsVacant.find? {s : SectionLayout} (hs : s.IsVacant) (kind : SegmentKind) :
    s.find? kind = none := by
  obtain ⟨index, start, rfl⟩ := hs
  refine List.find?_eq_none.mpr fun segment hsegment => ?_
  obtain ⟨_, _, rfl⟩ := List.mem_map.mp hsegment
  simp [Segment.isPresent]

variable {h h' : Header} {source target : Source}

theorem Records.sectionItems_of_vacant (hfixed : h.hasOffsetMap = false) {layout : SectionLayout}
    (hvacant : layout.IsVacant) (r : Records) : r.sectionItems h layout = [] := by
  have hopens : ∃ s, (Section.read r.source h layout r.internStrings).outcome = .ok s := by
    unfold Section.read Section.readStrings Section.readRows Section.readKeys Section.readCopies
      Section.readRelationships
    simp only [hvacant.find?, hfixed]
    obtain ⟨index, start, rfl⟩ := hvacant
    exact ⟨_, rfl⟩
  obtain ⟨s, hread⟩ := hopens
  have hrows := (Section.ensures_read r.source h layout r.internStrings 0 s hread).length_rows
  obtain ⟨index, start, rfl⟩ := hvacant
  unfold sectionItems
  rw [hread]
  dsimp only
  rw [List.eq_nil_of_length_eq_zero hrows, List.flatMap_nil]

namespace Layout

theorem planSection_vacant (hfixed : h.hasOffsetMap = false) {s : SectionHeader}
    (hvacant : s.Vacant) (index : Nat) :
    planSection h index s = .ok (.vacant index s.fileOffset.toNat) := by
  have hrequests : sectionRequests h s =
      ((SegmentKind.records :: Section.tableKinds).map fun kind => (kind, [])).map request := by
    unfold sectionRequests recordArea stringsOrOffsets sized
    rw [hfixed, hvacant.recordCount, hvacant.stringTableSize, hvacant.idListSize,
      hvacant.copyTableSize, hvacant.relationshipDataSize]
    simp [Section.tableKinds, request]
  have hplace : place h s.fileOffset.toNat (sectionRequests h s) =
      .ok (SectionLayout.vacant index s.fileOffset.toNat).segments := by
    rw [hrequests]
    exact place_pieces h (s.fileOffset.toNat_lt.trans (by decide))
  unfold planSection
  rw [hplace, hvacant.recordCount]
  rfl

/-- The sections are planned at their new places, and a vacant one among them. -/
theorem inserts_of_planSections (hagree : h.Agrees h') (hfixed : h.hasOffsetMap = false)
    {distance : Nat} {vacant : SectionHeader} (hvacant : vacant.Vacant)
    {headers headers' : List SectionHeader}
    (hinserts : Inserts (SectionHeader.Moved distance) (· = vacant) headers headers')
    {index : Nat} {layouts : List SectionLayout}
    (hplan : planSections h index headers = .ok layouts)
    (hcarries : ∀ layout ∈ layouts, ∀ segment ∈ layout.segments,
      source.Carries distance target segment)
    (hinside : ∀ layout ∈ layouts, ∀ segment ∈ layout.segments, segment.Inside source.size)
    (hsize : source.size + distance < positionLimit) (index' : Nat) :
    ∃ layouts', planSections h' index' headers' = .ok layouts' ∧
      Inserts (SectionLayout.Carried distance source target h) SectionLayout.IsVacant
        layouts layouts' := by
  induction hinserts generalizing index index' layouts with
  | here hb hrest =>
      subst hb
      obtain ⟨layouts', htarget, hcarried⟩ := carried_of_planSections hagree hfixed hrest hplan
        hcarries hinside hsize (index' + 1)
      have hfirst := planSection_vacant (hagree.hasOffsetMap.trans hfixed) hvacant index'
      refine ⟨_, bind_eq_ok.mpr ⟨_, hfirst, bind_eq_ok.mpr ⟨layouts', htarget, rfl⟩⟩, ?_⟩
      exact Inserts.here ⟨index', _, rfl⟩ hcarried
  | there hfirst _ ih =>
      obtain ⟨first, hplanFirst, hplan⟩ := bind_eq_ok.mp hplan
      obtain ⟨others, hplanOthers, hplan⟩ := bind_eq_ok.mp hplan
      cases hplan
      obtain ⟨hcarriesFirst, hcarriesOthers⟩ := List.forall_mem_cons.mp hcarries
      obtain ⟨hinsideFirst, hinsideOthers⟩ := List.forall_mem_cons.mp hinside
      obtain ⟨first', htarget, hcarried⟩ := carried_of_planSection hagree hfixed hfirst hplanFirst
        hcarriesFirst hinsideFirst hsize index'
      obtain ⟨others', htargets, hothers⟩ := ih hplanOthers hcarriesOthers hinsideOthers
        (index' + 1)
      refine ⟨first' :: others', ?_, Inserts.there hcarried hothers⟩
      exact bind_eq_ok.mpr ⟨first', htarget, bind_eq_ok.mpr ⟨others', htargets, rfl⟩⟩

end Layout

/-- A file of sections, and a file whose header announces a vacant section besides. The bytes of
every segment are found there as much later as the announcement takes up, those of an offset map
excepted, in which there are positions. -/
structure Source.Widens (source target : Source) (h h' : Header) (vacant : SectionHeader)
    (layout : Layout) : Prop where
  start : (source.parse Metadata.parseStart).outcome = .ok (.wdc2, some h)
  start' : (target.parse Metadata.parseStart).outcome = .ok (.wdc2, some h')
  header : h.Widens h' vacant
  carries : ∀ segment ∈ layout.segments, segment.kind ≠ .offsetMap →
    source.Carries SectionHeader.size target segment
  size : source.size + SectionHeader.size < positionLimit

instance (source target : Source) (h h' : Header) (vacant : SectionHeader) (layout : Layout) :
    Decidable (source.Widens target h h' vacant layout) :=
  decidable_of_iff ((source.parse Metadata.parseStart).outcome = .ok (.wdc2, some h) ∧
      (target.parse Metadata.parseStart).outcome = .ok (.wdc2, some h') ∧ h.Widens h' vacant ∧
      (∀ segment ∈ layout.segments, segment.kind ≠ .offsetMap →
        source.Carries SectionHeader.size target segment) ∧
      source.size + SectionHeader.size < positionLimit)
    ⟨fun ⟨h₁, h₂, h₃, h₄, h₅⟩ => ⟨h₁, h₂, h₃, h₄, h₅⟩,
      fun ⟨h₁, h₂, h₃, h₄, h₅⟩ => ⟨h₁, h₂, h₃, h₄, h₅⟩⟩

section

variable {vacant : SectionHeader}

theorem Layout.exists_plan_of_widens {layout : Layout}
    (hfile : source.Widens target h h' vacant layout) (hfixed : h.hasOffsetMap = false)
    (hplan : plan h = .ok layout)
    (hinside : ∀ segment ∈ layout.segments, segment.Inside source.size) :
    ∃ layout', plan h' = .ok layout' ∧
      layout.SharedCarried SectionHeader.size source target layout' ∧
      Inserts (SectionLayout.Carried SectionHeader.size source target h) SectionLayout.IsVacant
        layout.sections layout'.sections := by
  obtain ⟨hsignature, _, _, hend⟩ := Source.startsWith_of_parse hfile.start
  have hagree := hfile.header.agrees
  obtain ⟨hshared, hsections⟩ := (plan_eq_ok hsignature).mp hplan
  -- No offset map is planned, so every segment is carried along.
  have hsharedKinds : ∀ segment ∈ layout.shared, segment.kind ≠ .offsetMap := by
    intro segment hsegment
    have hkind := List.mem_map_of_mem (f := Segment.kind) hsegment
    rw [map_kind_of_place hshared] at hkind
    rintro hmap
    rw [hmap] at hkind
    revert hkind
    simp [sharedRequests, sized, words]
  have hsectionKinds : ∀ s ∈ layout.sections, ∀ segment ∈ s.segments,
      segment.kind ≠ .offsetMap := by
    intro s hs segment hsegment
    have hkind := List.mem_map_of_mem (f := Segment.kind) hsegment
    rw [(planned_of_planSections hfixed hsections s hs).kinds] at hkind
    rintro hmap
    rw [hmap] at hkind
    revert hkind
    decide
  have hmem : ∀ s ∈ layout.sections, ∀ segment ∈ s.segments, segment ∈ layout.segments :=
    fun s hs segment hsegment => List.mem_append_right _ (List.mem_flatMap.mpr ⟨s, hs, hsegment⟩)
  have hroom : h.headerEnd + SectionHeader.size < positionLimit :=
    (Nat.add_le_add_right hend _).trans_lt hfile.size
  obtain ⟨htarget, _⟩ := place_move h' (bytes_of_sharedRequests h) hshared hroom
    (fun segment hsegment => hinside segment (List.mem_append_left _ hsegment)) hfile.size
  rw [← hfile.header.headerEnd, ← sharedRequests_of_agrees hagree] at htarget
  have hcarries : ∀ s ∈ layout.sections, ∀ segment ∈ s.segments,
      source.Carries SectionHeader.size target segment := fun s hs segment hsegment =>
    hfile.carries segment (hmem s hs segment hsegment) (hsectionKinds s hs segment hsegment)
  obtain ⟨sections, hplanned, hinserts⟩ := inserts_of_planSections hagree hfixed
    hfile.header.isVacant hfile.header.sections hsections hcarries
    (fun s hs segment hsegment => hinside segment (hmem s hs segment hsegment)) hfile.size 0
  refine ⟨⟨_, sections⟩, (plan_eq_ok (hagree.signature.trans hsignature)).mpr
    ⟨htarget, hplanned⟩, ⟨rfl, fun segment hsegment => ?_⟩, hinserts⟩
  exact hfile.carries segment (List.mem_append_left _ hsegment) (hsharedKinds segment hsegment)

namespace Metadata

variable {schema : Schema} {m : Metadata}

theorem parts_of_outcome_read {signature : Signature}
    (hstart : (source.parse parseStart).outcome = .ok (signature, some h))
    (hread : (read source schema).outcome = .ok m) :
    m.header = some h ∧ m.schema = schema ∧ Layout.plan h = .ok m.layout ∧
      (Descriptor.readAll source h m.layout schema).outcome = .ok m.descriptors ∧
      sectionMappings h m.layout m.descriptors schema = .ok m.mappings := by
  rcases cases_of_outcome_read hread with
    ⟨_, hother, _⟩ | ⟨_, _, layout, descriptors, mappings, hother, hplan, hdescriptors, hmappings,
      rfl⟩
  · rw [hstart] at hother
    cases hother
  · rw [hstart] at hother
    cases hother
    exact ⟨rfl, rfl, hplan, hdescriptors, hmappings⟩

theorem inserts_sectionMapping (hagree : h.Agrees h') {distance : Nat}
    {sections sections' : List SectionLayout}
    (hinserts : Inserts (SectionLayout.Carried distance source target h) SectionLayout.IsVacant
      sections sections') (descriptors : List Descriptor) (schema : Schema) :
    Inserts (fun s s' => sectionMapping h' descriptors schema s' =
        sectionMapping h descriptors schema s)
      (fun s' => sectionMapping h' descriptors schema s' =
        Mapping.build schema descriptors h.indexColumn.toNat false) sections sections' := by
  refine hinserts.imp (fun s _ s' _ hcarried => ?_) fun s' hvacant => ?_
  · unfold sectionMapping
    rw [hagree.indexColumn, hcarried.moved.find?, Option.isSome_map]
  · unfold sectionMapping
    rw [hagree.indexColumn, hvacant.find?]
    rfl

/-- Whether the file with the vacant section opens is up to the mappings of its sections. -/
theorem exists_outcome_read_of_widens (hfile : source.Widens target h h' vacant m.layout)
    (hfixed : h.hasOffsetMap = false) (hread : (read source schema).outcome = .ok m)
    (hinside : ∀ segment ∈ m.layout.segments, segment.Inside source.size) :
    ∃ layout', m.layout.SharedCarried SectionHeader.size source target layout' ∧
      Inserts (SectionLayout.Carried SectionHeader.size source target h) SectionLayout.IsVacant
        m.layout.sections layout'.sections ∧
      (read target schema).outcome =
        (sectionMappings h' layout' m.descriptors schema).map fun mappings =>
          ⟨h'.signature, some h', layout', m.descriptors, schema, mappings⟩ := by
  obtain ⟨_, _, hplan, hdescriptors, _⟩ := parts_of_outcome_read hfile.start hread
  obtain ⟨layout', hplan', hshared, hinserts⟩ :=
    Layout.exists_plan_of_widens hfile hfixed hplan hinside
  have hrelated : Descriptor.hasRelationships layout' = Descriptor.hasRelationships m.layout := by
    refine (hinserts.imp (fun s _ s' _ hcarried => ?_) fun s' hvacant => ?_).any_eq
    · rw [hcarried.moved.find?, Option.isSome_map]
    · rw [hvacant.find?]
      rfl
  have hsignature := (Source.startsWith_of_parse hfile.start).signature
  have hdescriptors' := (Descriptor.follows_readAll hfile.header.agrees hsignature hshared
    hrelated schema).outcome_eq hdescriptors
  refine ⟨layout', hshared, hinserts, ?_⟩
  rw [outcome_read, hfile.start']
  change (readPopulated target h' schema).outcome = _
  rw [outcome_readPopulated, hplan']
  change (Descriptor.readAll target h' layout' schema).outcome >>= _ = _
  rw [hdescriptors']
  change (sectionMappings h' layout' m.descriptors schema >>= fun _ => _) = _
  cases sectionMappings h' layout' m.descriptors schema <;> rfl

end Metadata

namespace Records

variable {m m' : Metadata} {schema : Schema} {intern : Bool} {items : List Item}

/-- Items that end without an error are the same with the vacant section. -/
theorem listed_of_widens (hagree : h.Agrees h') (hfixed : h.hasOffsetMap = false)
    (hheader : m.header = some h) (hheader' : m'.header = some h')
    (hmapped : m.IsMapped schema) (hmapped' : m'.IsMapped schema)
    (hdescriptors : m'.descriptors = m.descriptors)
    (hshared : m.layout.SharedCarried SectionHeader.size source target m'.layout)
    (hinserts : Inserts (SectionLayout.Carried SectionHeader.size source target h)
      SectionLayout.IsVacant m.layout.sections m'.layout.sections)
    (hlisted : listed source m intern = .ok items) (herror : ∀ e, .error e ∉ items) :
    listed target m' intern = .ok items := by
  obtain ⟨shared, htables, rfl⟩ := exists_of_listed hheader hlisted herror
  have htables' := (SharedTables.follows_read hagree hheader hheader' hshared
    hdescriptors).outcome_eq htables
  refine listed_of_sections hheader' htables' (Inserts.flatMap_eq ?_) herror
  refine hinserts.imp (fun s hs s' hs' hcarried => ?_) fun s' hvacant =>
    sectionItems_of_vacant (hagree.hasOffsetMap.trans hfixed) hvacant _
  obtain ⟨mapping, hmapping, hbuild⟩ := hmapped.2 h hheader s hs
  obtain ⟨mapping', hmapping', hbuild'⟩ := hmapped'.2 h' hheader' s' hs'
  have hsame : mapping' = mapping := by
    unfold Metadata.sectionMapping at hbuild hbuild'
    rw [hagree.indexColumn, hdescriptors, hcarried.moved.find?, Option.isSome_map, hbuild]
      at hbuild'
    exact (Except.ok.inj hbuild').symm
  refine sectionItems_of_carried hfixed hagree.flags hagree.recordSize hagree.signature hcarried
    hdescriptors (hmapped'.1.trans hmapped.1.symm) ?_ fun e he =>
      herror e (List.mem_flatMap.mpr ⟨s, hs, he⟩)
  rw [hmapping, hmapping', hsame]

end Records

end

end ClientTable
