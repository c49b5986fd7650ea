import Mathlib.Data.List.Basic
import Mathlib.Data.List.ModifyLast
import ClientTable.Proofs.ByteColumns
import ClientTable.Proofs.TrailingColumns

namespace ClientTable

open Attempt

namespace FieldInfo

/-- Widths are in range, and no entry stands in front of one before it. -/
structure AreSound (infos : List FieldInfo) : Prop where
  width : ∀ info ∈ infos, 1 ≤ info.declaredBits ∧ info.declaredBits ≤ 64
  order : infos.Pairwise fun info other => info.position ≤ other.position

/-- What is wrong with some entry, where the first one has the given index. -/
inductive HasFault : (index : Nat) → List FieldInfo → Fault → Prop
  | width {index : Nat} {info : FieldInfo} {rest : List FieldInfo}
      (hwidth : ¬ (1 ≤ info.declaredBits ∧ info.declaredBits ≤ 64)) :
      HasFault index (info :: rest) (.fieldWidth info.position.toNat info.declaredBits)
  | order {index : Nat} {info next : FieldInfo} {rest : List FieldInfo}
      (hposition : next.position < info.position) :
      HasFault index (info :: next :: rest)
        (.fieldOrder (index + 1) next.position.toNat info.position.toNat)
  | later {index : Nat} {info : FieldInfo} {rest : List FieldInfo} {fault : Fault}
      (hfault : HasFault (index + 1) rest fault) : HasFault index (info :: rest) fault

theorem AreSound.cons {info : FieldInfo} {rest : List FieldInfo} (h : AreSound rest)
    (hwidth : 1 ≤ info.declaredBits ∧ info.declaredBits ≤ 64)
    (hposition : ∀ next ∈ rest.head?, info.position ≤ next.position) :
    AreSound (info :: rest) where
  width := List.forall_mem_cons.mpr ⟨hwidth, h.width⟩
  order := by
    refine List.pairwise_cons.mpr ⟨?_, h.order⟩
    cases rest with
    | nil => exact nofun
    | cons next rest =>
        have hnext := hposition next rfl
        refine List.forall_mem_cons.mpr ⟨hnext, fun other hother => ?_⟩
        exact UInt16.le_trans hnext (List.rel_of_pairwise_cons h.order hother)

/-- Entries that make no sense are refused, and the error says what is wrong. -/
theorem exists_fault (h : Header) (index : Nat) {infos : List FieldInfo}
    (hunsound : ¬ AreSound infos) :
    ∃ fault, HasFault index infos fault ∧ descriptors h index infos = .error (.invalid fault) := by
  induction infos generalizing index with
  | nil => exact absurd ⟨nofun, List.Pairwise.nil⟩ hunsound
  | cons info rest ih =>
      by_cases hwidth : 1 ≤ info.declaredBits ∧ info.declaredBits ≤ 64
      case neg =>
        have hbits : info.bitSize =
            .error (.invalid (.fieldWidth info.position.toNat info.declaredBits)) := if_neg hwidth
        exact ⟨_, .width hwidth, bind_eq_error.mpr (Or.inl hbits)⟩
      have hbits : info.bitSize = .ok info.declaredBits.toNat := if_pos hwidth
      -- An entry that passes leaves the fault to those behind it.
      have hcarries (hposition : ∀ next ∈ rest.head?, info.position ≤ next.position) {count : Nat}
          (hcount : info.elements h index info.declaredBits.toNat rest = .ok count) :
          ∃ fault, HasFault index (info :: rest) fault ∧
            descriptors h index (info :: rest) = .error (.invalid fault) := by
        obtain ⟨fault, hfault, hrest⟩ :=
          ih (index + 1) fun hsound => hunsound (hsound.cons hwidth hposition)
        exact ⟨fault, .later hfault, bind_eq_error.mpr (Or.inr ⟨_, hbits, bind_eq_error.mpr
          (Or.inr ⟨_, hcount, bind_eq_error.mpr (Or.inl hrest)⟩)⟩)⟩
      cases rest with
      | nil =>
          cases hflag : h.hasOffsetMap with
          | true => exact hcarries nofun (if_pos hflag)
          | false => exact hcarries nofun (if_neg (ne_true_of_eq_false hflag))
      | cons next rest =>
          by_cases hposition : next.position < info.position
          case pos =>
            have hcount : info.elements h index info.declaredBits.toNat (next :: rest) =
                .error (.invalid (.fieldOrder (index + 1) next.position.toNat
                  info.position.toNat)) := if_pos hposition
            exact ⟨_, .order hposition, bind_eq_error.mpr (Or.inr ⟨_, hbits,
              bind_eq_error.mpr (Or.inl hcount)⟩)⟩
          case neg =>
            refine hcarries ?_ (if_neg hposition)
            rintro other ⟨⟩
            exact UInt16.not_lt.mp hposition

end FieldInfo

namespace Descriptor

/-- The descriptors of a file are the given ones, and behind them those of columns outside of its
records. -/
def Builds (source : Source) (h : Header) (layout : Layout) (columns : List Descriptor) : Prop :=
  ∃ trailing : List Descriptor, (∀ d ∈ trailing, d.IsOutside) ∧
    ∀ schema count, ((readAll source h layout schema).on count).1 = .ok (columns ++ trailing)

theorem IsOutside.recordBits_eq_zero {d : Descriptor} (h : d.IsOutside) : d.recordBits = 0 := by
  obtain ⟨-, hcommon | hstorage⟩ := h
  · unfold isCommon at hcommon
    unfold recordBits
    split at hcommon
    case h_1 hstorage => rw [hstorage]
    case h_2 => cases hcommon
  · rw [recordBits, hstorage]

variable {source : Source} {h : Header} {layout : Layout} {infos : List FieldInfo}
  {columns : List Descriptor}

theorem exists_gives_readColumns (hsignature : h.signature = .wdb5 ∨ h.signature = .wdb6)
    (hfinds : source.Finds (layout.findShared? .fieldInfo) (infos.flatMap FieldInfo.bytes))
    (hcolumns : FieldInfo.descriptors h 0 infos = .ok columns)
    (hnarrow : h.recordBits < wordLimit) :
    ∃ trailing : List Descriptor, (∀ d ∈ trailing, d.IsOutside) ∧
      ∀ schema, Gives (fun _ => True) (readColumns source h layout schema)
        (columns ++ trailing) := by
  have hinfos := gives_readFieldInfos hfinds
  rcases hsignature with hsignature | hsignature
  · refine ⟨[], nofun, fun schema => ?_⟩
    unfold readColumns
    rw [hsignature, List.append_nil]
    exact hinfos.bind (gives_lift hcolumns)
  · have hcommon := commonColumns_of_lt hnarrow
    refine ⟨_, (isOutside_of_commonColumns hcommon).2, fun schema => ?_⟩
    unfold readColumns
    rw [hsignature]
    exact hinfos.bind ((gives_lift hcolumns).bind ((gives_lift hcommon).bind (gives_pure _)))

/-- The columns that a file declares are built, if its records are wide enough for them. -/
theorem builds_of_descriptors (hsignature : h.signature = .wdb5 ∨ h.signature = .wdb6)
    (hfinds : source.Finds (layout.findShared? .fieldInfo) (infos.flatMap FieldInfo.bytes))
    (hcolumns : FieldInfo.descriptors h 0 infos = .ok columns)
    (hnarrow : h.recordBits < wordLimit)
    (hwidth : ∀ others : List Descriptor, (∀ d ∈ others, d.recordBits = 0) →
      checkWidth h (columns ++ others) = .ok ()) :
    Builds source h layout columns := by
  obtain ⟨others, houtside, hread⟩ :=
    exists_gives_readColumns hsignature hfinds hcolumns hnarrow
  have hchecked {trailing : List Descriptor} (htrailing : ∀ d ∈ trailing, d.IsOutside) :=
    hwidth trailing fun d hd => (htrailing d hd).recordBits_eq_zero
  cases hrelated : hasRelationships layout with
  | false =>
      refine ⟨others, houtside, fun schema count => ?_⟩
      refine ((hread schema).bind ?_ count trivial).1
      rw [hrelated]
      exact (gives_pure _).bind ((gives_lift (hchecked houtside)).bind (gives_pure _))
  | true =>
      -- The column of foreign keys is the last one of those outside.
      have hcolumn := relationshipColumn_of_lt hnarrow
      have hall : ∀ d ∈ others ++ [⟨h.recordBits, 32, 1, .relationship⟩], IsOutside d := by
        intro d hd
        rcases List.mem_append.mp hd with hd | hd
        · exact houtside d hd
        · rw [List.mem_singleton.mp hd]
          exact (isOutside_of_relationshipColumn hcolumn).2
      refine ⟨_, hall, fun schema count => ?_⟩
      refine ((hread schema).bind ?_ count trivial).1
      rw [hrelated]
      refine (gives_lift hcolumn).bind ((gives_pure _).bind ?_)
      rw [List.append_assoc]
      exact (gives_lift (hchecked hall)).bind (gives_pure _)

theorem on_readAll_of_error (hsignature : h.signature = .wdb5 ∨ h.signature = .wdb6)
    (hfinds : source.Finds (layout.findShared? .fieldInfo) (infos.flatMap FieldInfo.bytes))
    {e : Error} (herror : FieldInfo.descriptors h 0 infos = .error e) (schema : Schema)
    (count : Nat) : ((readAll source h layout schema).on count).1 = .error e := by
  obtain ⟨after, hinfos⟩ : ∃ after,
      (readFieldInfos source layout).on count = (.ok infos, after) :=
    ⟨_, Prod.ext (gives_readFieldInfos hfinds count trivial).1 rfl⟩
  have hcolumns : (readColumns source h layout schema).on count = (.error e, after) := by
    unfold readColumns
    rcases hsignature with hsignature | hsignature <;> rw [hsignature]
    · change (readFieldInfos source layout >>= fun infos =>
        liftM (FieldInfo.descriptors h 0 infos)).on count = _
      rw [on_bind_of_ok hinfos, herror]
      rfl
    · change (readFieldInfos source layout >>= fun infos => _).on count = _
      rw [on_bind_of_ok hinfos, herror]
      rfl
  unfold readAll
  rw [on_bind_of_error hcolumns]

theorem Builds.unique {others : List Descriptor} (hcolumns : Builds source h layout columns)
    (hothers : Builds source h layout others) (hlength : columns.length = others.length) :
    columns = others := by
  obtain ⟨trailing, -, hread⟩ := hcolumns
  obtain ⟨behind, -, hother⟩ := hothers
  have hsame := Except.ok.inj ((hread .empty 0).symm.trans (hother .empty 0))
  exact (List.append_inj hsame hlength).1

end Descriptor

namespace ByteColumn

variable {source : Source} {h : Header} {layout : Layout} {first padding : Nat}
  {columns : List ByteColumn} {last : ByteColumn}

theorem recordBits_descriptors (position : Nat) (columns : List ByteColumn) :
    8 * position + total ((descriptors position columns).map Descriptor.recordBits) =
      8 * stop position columns := by
  induction columns generalizing position with
  | nil => rfl
  | cons c columns ih =>
      have hrest := ih (position + c.length)
      have hbits : c.bits * c.arity = 8 * c.length := c.bits_mul c.arity
      rw [descriptors, List.map_cons, total_cons]
      change 8 * position + (c.bits * c.arity + _) = 8 * stop (position + c.length) columns
      omega

theorem bitStop_le {position : Nat} {columns : List ByteColumn} :
    ∀ d ∈ descriptors position columns, d.bitStop ≤ 8 * stop position columns := by
  induction columns generalizing position with
  | nil => exact nofun
  | cons c columns ih =>
      have hwidth := recordBits_descriptors (position + c.length) columns
      have hbits : c.bits * c.arity = 8 * c.length := c.bits_mul c.arity
      rintro d (_ | ⟨_, hd⟩)
      · change 8 * position + c.bits * c.arity ≤ 8 * stop (position + c.length) columns
        omega
      · exact ih d hd

theorem arity_resize_add (last : ByteColumn) (count : Nat) :
    (last.resize (last.arity + count)).arity = last.arity + count :=
  Nat.max_eq_left (last.arity_pos.trans (Nat.le_add_right ..))

theorem length_resize_add (last : ByteColumn) (padding : Nat) :
    (last.resize (last.arity + padding / last.size)).length ≤ last.length + padding := by
  rw [length, arity_resize_add]
  change last.size * (last.arity + padding / last.size) ≤ last.size * last.arity + padding
  rw [Nat.mul_add]
  exact Nat.add_le_add_left (Nat.mul_div_le padding last.size) _

theorem lastArity_eq {position : Nat} (hfixed : h.hasOffsetMap = false)
    (hsize : h.recordSize.toNat = position + last.length + padding)
    (hnarrow : h.recordBits < wordLimit) :
    last.lastArity h position = last.arity + padding / last.size := by
  -- From the column on, the record holds the column and the padding.
  have hleft : h.recordBits - 8 * position = 8 * (last.size * last.arity + padding) := by
    rw [Header.recordBits, hsize, length]
    omega
  have hcount : (h.recordBits - 8 * position) / last.bits = last.arity + padding / last.size := by
    rw [hleft, bits, Nat.mul_div_mul_left _ _ (by decide), Nat.mul_add_div last.size_pos]
  have hbelow : (h.recordBits - 8 * position) / last.bits < wordLimit :=
    Nat.lt_of_le_of_lt ((Nat.div_le_self ..).trans (Nat.sub_le ..)) hnarrow
  rw [lastArity, hfixed, if_neg Bool.false_ne_true, Nat.mod_eq_of_lt hbelow, hcount]

theorem checkWidth_descriptors (hstop : stop first columns ≤ h.recordSize.toNat)
    {others : List Descriptor} (hothers : ∀ d ∈ others, d.recordBits = 0) :
    Descriptor.checkWidth h (descriptors first columns ++ others) = .ok () := by
  have hsum := recordBits_descriptors first columns
  have hreach : 8 * stop first columns ≤ h.recordBits := by
    rw [Header.recordBits]
    omega
  refine Descriptor.checkWidth_append hothers (by omega) fun d hd _ => ?_
  exact (bitStop_le d hd).trans hreach

section

variable (hsignature : h.signature = .wdb5 ∨ h.signature = .wdb6)
  (hfinds : source.Finds (layout.findShared? .fieldInfo)
    ((infos first (columns ++ [last])).flatMap FieldInfo.bytes))
  (hnear : AllNear first (columns ++ [last])) (hnarrow : h.recordBits < wordLimit)

include hsignature hfinds hnear hnarrow

theorem builds_of_fixed (hfixed : h.hasOffsetMap = false)
    (hsize : h.recordSize.toNat = stop first (columns ++ [last]) + padding) :
    Descriptor.Builds source h layout (descriptors first
      (columns ++ [last.resize (last.arity + padding / last.size)])) := by
  rw [stop_append] at hsize
  have hcolumns : FieldInfo.descriptors h 0 (infos first (columns ++ [last])) = _ :=
    descriptors_infos hnear
  rw [lastArity_eq hfixed hsize hnarrow] at hcolumns
  refine Descriptor.builds_of_descriptors hsignature hfinds hcolumns hnarrow
    fun others hothers => checkWidth_descriptors ?_ hothers
  have hlength := length_resize_add last padding
  rw [stop_append, hsize]
  change stop first columns + _ ≤ stop first columns + last.length + padding
  rw [Nat.add_assoc]
  exact Nat.add_le_add_left hlength _

theorem builds_of_variable (hvariable : h.hasOffsetMap = true) :
    Descriptor.Builds source h layout (descriptors first (columns ++ [last.single])) := by
  have hcolumns : FieldInfo.descriptors h 0 (infos first (columns ++ [last])) = _ :=
    descriptors_infos hnear
  rw [lastArity, if_pos hvariable] at hcolumns
  exact Descriptor.builds_of_descriptors hsignature hfinds hcolumns hnarrow
    fun others _ => if_pos hvariable

end

theorem descriptors_resize_eq_iff :
    descriptors first (columns ++ [last.resize (last.arity + padding / last.size)]) =
      descriptors first (columns ++ [last]) ↔ padding < last.size := by
  rw [← Nat.div_eq_zero_iff_lt last.size_pos]
  constructor
  · intro hsame
    rw [descriptors_append, descriptors_append] at hsame
    have hlast := List.head_eq_of_cons_eq (List.append_cancel_left hsame)
    have harity := congrArg Descriptor.cardinality hlast
    dsimp only at harity
    rw [arity_resize_add] at harity
    exact Nat.add_eq_left.mp harity
  · intro hzero
    rw [hzero, Nat.add_zero, resize_arity]

/-- Columns that stand back to back are found again in a file that says of each its width and its
position. In records of fixed size the last one keeps its elements exactly if less than one of them
fits behind it; in others it has one. A file in which a width is out of range or a position is in
front of one before it is refused for such a field. -/
theorem declared_columns (hsignature : h.signature = .wdb5 ∨ h.signature = .wdb6) :
    (∀ (first : Nat) (columns : List ByteColumn),
      source.Finds (layout.findShared? .fieldInfo)
        ((infos first columns).flatMap FieldInfo.bytes) →
      AllNear first columns → h.recordSize.toNat < 2 ^ 29 →
      (h.hasOffsetMap = true →
        Descriptor.Builds source h layout (descriptors first (columns.modifyLast single))) ∧
      (h.hasOffsetMap = false → ∀ padding,
        h.recordSize.toNat = stop first columns + padding →
        (Descriptor.Builds source h layout (descriptors first columns) ↔
          ∀ last ∈ columns.getLast?, padding < last.size))) ∧
    ∀ infos : List FieldInfo,
      source.Finds (layout.findShared? .fieldInfo) (infos.flatMap FieldInfo.bytes) →
      ¬ FieldInfo.AreSound infos →
      ∃ fault, FieldInfo.HasFault 0 infos fault ∧ ∀ schema count,
        ((Descriptor.readAll source h layout schema).on count).1 = .error (.invalid fault) := by
  refine ⟨fun first columns hfinds hnear hsmall => ?_, fun infos hfinds hunsound => ?_⟩
  · have hnarrow : h.recordBits < wordLimit := by
      rw [Header.recordBits, wordLimit]
      omega
    rcases List.eq_nil_or_concat' columns with rfl | ⟨earlier, last, rfl⟩
    · have hnone : Descriptor.Builds source h layout (descriptors first []) :=
        Descriptor.builds_of_descriptors hsignature hfinds rfl hnarrow fun others hothers =>
          Descriptor.checkWidth_append hothers (Nat.zero_le _) nofun
      exact ⟨fun _ => hnone, fun _ _ _ => iff_of_true hnone nofun⟩
    · refine ⟨fun hvariable => ?_, fun hfixed padding hsize => ?_⟩
      · rw [List.modifyLast_concat]
        exact builds_of_variable hsignature hfinds hnear hnarrow hvariable
      · have hpadded := builds_of_fixed hsignature hfinds hnear hnarrow hfixed hsize
        simp only [List.getLast?_concat, Option.mem_some_iff, forall_eq']
        rw [← descriptors_resize_eq_iff]
        constructor
        -- The columns that have been found leave no other answer of their number.
        · refine fun hbuilds => hpadded.unique hbuilds ?_
          rw [length_descriptors, length_descriptors, List.length_append, List.length_append]
          rfl
        · intro hsame
          rwa [hsame] at hpadded
  · obtain ⟨fault, hfault, hrefused⟩ := FieldInfo.exists_fault h 0 hunsound
    exact ⟨fault, hfault, Descriptor.on_readAll_of_error hsignature hfinds hrefused⟩

/-- Three bytes, a number of eight bytes and a pair of numbers of two bytes. -/
def threeColumns : List ByteColumn :=
  [ofSize 1 3, ofSize 8 1, ofSize 2 2]

def declaring (infos : List FieldInfo) : Source :=
  .memory (infos.flatMap FieldInfo.bytes)

def onlyInfos (infos : List FieldInfo) : Layout :=
  ⟨[⟨.fieldInfo, 0, 4 * infos.length⟩], []⟩

def sized (recordSize : UInt32) (flags : UInt16) : Header :=
  { Header.basic .wdb5 1 3 recordSize 0 with flags := ⟨flags⟩ }

theorem declared_columns_threeColumns :
    let builds (recordSize : UInt32) (flags : UInt16) :=
      Descriptor.Builds (declaring (infos 0 threeColumns)) (sized recordSize flags)
        (onlyInfos (infos 0 threeColumns))
    AllNear 0 threeColumns ∧ stop 0 threeColumns = 15 ∧
      builds 16 0
        [⟨0, 8, 3, .plain false⟩, ⟨24, 64, 1, .plain false⟩, ⟨88, 16, 2, .plain false⟩] ∧
      ¬ builds 17 0
        [⟨0, 8, 3, .plain false⟩, ⟨24, 64, 1, .plain false⟩, ⟨88, 16, 2, .plain false⟩] ∧
      builds 17 1
        [⟨0, 8, 3, .plain false⟩, ⟨24, 64, 1, .plain false⟩, ⟨88, 16, 1, .plain false⟩] ∧
      ¬ FieldInfo.AreSound [⟨24, 4⟩, ⟨24, 0⟩] ∧
      ∃ fault, FieldInfo.HasFault 0 [⟨24, 4⟩, ⟨24, 0⟩] fault ∧ ∀ schema count,
        ((Descriptor.readAll (declaring [⟨24, 4⟩, ⟨24, 0⟩]) (sized 16 0)
          (onlyInfos [⟨24, 4⟩, ⟨24, 0⟩]) schema).on count).1 = .error (.invalid fault) := by
  have hnear : AllNear 0 threeColumns := by decide
  have hfinds : (declaring (infos 0 threeColumns)).Finds
      ((onlyInfos (infos 0 threeColumns)).findShared? .fieldInfo)
      ((infos 0 threeColumns).flatMap FieldInfo.bytes) := ⟨by decide, rfl, List.prefix_rfl⟩
  have hcolumns (recordSize : UInt32) (flags : UInt16) :=
    (declared_columns (h := sized recordSize flags) (Or.inl rfl)).1 0 threeColumns hfinds hnear
  have hunsound : ¬ FieldInfo.AreSound [⟨24, 4⟩, ⟨24, 0⟩] :=
    fun hsound => absurd hsound.order (by decide)
  refine ⟨hnear, rfl, ?_, ?_, ?_, hunsound, ?_⟩
  · exact ((hcolumns 16 0 (by decide)).2 rfl 1 rfl).mpr (by decide)
  · intro hbuilds
    exact absurd (((hcolumns 17 0 (by decide)).2 rfl 2 rfl).mp hbuilds) (by decide)
  · exact (hcolumns 17 1 (by decide)).1 rfl
  · exact (declared_columns (h := sized 16 0) (Or.inl rfl)).2 _
      ⟨by decide, rfl, List.prefix_rfl⟩ hunsound

end ByteColumn

end ClientTable
