/-
  Quietwire.Packet.Relaying

  What a path of relays does to a cell.  Each hop spends one unit of `ttl`; every
  byte that the end-to-end seal authenticates stays where it is.
-/
import Quietwire.Packet.Codec

namespace Quietwire
namespace Packet

/-- Writing one byte leaves the slices that do not hold it alone. -/
theorem slice_set_of_notMem {α : Type} {n i start len : Nat} (v : Vector α n) (x : α) (hi : i < n)
    (h : start + len ≤ n) (hout : i < start ∨ start + len ≤ i) :
    slice (v.set i x) start len h = slice v start len h := by
  apply Vector.ext
  intro j hj
  rw [slice_getElem, slice_getElem, Vector.getElem_set_ne]
  omega

/-! ## The hop budget -/

theorem Hops.spent_eq_some_iff {hops hops' : Hops} : hops.spent = some hops' ↔
    1 ≤ hops.ttl.toNat ∧ hops'.ttl.toNat = hops.ttl.toNat - 1 ∧ hops'.copies = hops.copies := by
  have hle : (1 : UInt8) ≤ hops.ttl ↔ 1 ≤ hops.ttl.toNat := UInt8.le_iff_toNat_le
  unfold Hops.spent
  constructor
  · intro h
    split at h
    · rename_i hpos
      cases h
      exact ⟨hle.mp hpos, UInt8.toNat_sub_of_le _ _ hpos, rfl⟩
    · cases h
  · rintro ⟨hpos, httl, hcopies⟩
    have hpos' := hle.mpr hpos
    rw [dif_pos hpos']
    have hsub : hops'.ttl = hops.ttl - 1 := by
      apply UInt8.toNat_inj.mp
      rw [httl, UInt8.toNat_sub_of_le _ _ hpos']
      rfl
    cases hops'
    cases hsub
    cases hcopies
    rfl

namespace Cell512

/-- The cell after `k` relays, or `none` once one of them dropped it. -/
def forwardedBy : Nat → Cell512 → Option Cell512
  | 0, cell => some cell
  | k + 1, cell => cell.forwarded.bind (forwardedBy k)

/-- `cell'` is `cell`, `k` hops poorer. -/
structure Poorer (k : Nat) (cell cell' : Cell512) : Prop where
  header : cell'.header = cell.header
  body : cell'.body = cell.body
  copies : cell'.hops.copies = cell.hops.copies
  ttl : cell'.hops.ttl.toNat + k = cell.hops.ttl.toNat

variable {cell cell' : Cell512}

theorem forwarded_eq_some_iff : cell.forwarded = some cell' ↔ Poorer 1 cell cell' := by
  unfold forwarded
  rw [Option.map_eq_some_iff]
  constructor
  · rintro ⟨hops, hspent, rfl⟩
    obtain ⟨hpos, httl, hcopies⟩ := Hops.spent_eq_some_iff.mp hspent
    refine ⟨rfl, rfl, hcopies, ?_⟩
    show hops.ttl.toNat + 1 = cell.hops.ttl.toNat
    omega
  · intro h
    refine ⟨cell'.hops, Hops.spent_eq_some_iff.mpr ⟨?_, ?_, h.copies⟩, ?_⟩
    · have := h.ttl
      omega
    · have := h.ttl
      omega
    · rw [← h.header, ← h.body]

/-- As long as the budget lasts, the poorer cell is a cell. -/
theorem exists_poorer {k : Nat} (hk : k ≤ cell.hops.ttl.toNat) :
    ∃ cell', Poorer k cell cell' := by
  have hk' : UInt8.ofNat k ≤ cell.hops.ttl := by
    rw [UInt8.le_iff_toNat_le, UInt8.toNat_ofNat']
    exact Nat.le_trans (Nat.mod_le _ _) hk
  have hlt := cell.hops.ttl.toNat_lt
  have hsub : (cell.hops.ttl - UInt8.ofNat k).toNat = cell.hops.ttl.toNat - k := by
    rw [UInt8.toNat_sub_of_le _ _ hk', UInt8.toNat_ofNat', Nat.mod_eq_of_lt (by omega)]
  have hle : cell.hops.ttl - UInt8.ofNat k ≤ maxTtl := by
    have := UInt8.le_iff_toNat_le.mp cell.hops.ttl_le
    rw [UInt8.le_iff_toNat_le]
    omega
  refine ⟨{ cell with hops := ⟨cell.hops.ttl - UInt8.ofNat k, cell.hops.copies, hle,
    cell.hops.copies_le⟩ }, rfl, rfl, rfl, ?_⟩
  show (cell.hops.ttl - UInt8.ofNat k).toNat + k = cell.hops.ttl.toNat
  omega

/-- The budget can be spent one hop at a time. -/
theorem Poorer.exists_first {k : Nat} (h : Poorer (k + 1) cell cell') :
    ∃ next, Poorer 1 cell next ∧ Poorer k next cell' := by
  have httl := h.ttl
  have hone : 1 ≤ cell.hops.ttl.toNat := by omega
  obtain ⟨next, hnext⟩ := exists_poorer hone
  have httl' := hnext.ttl
  have hrest : cell'.hops.ttl.toNat + k = next.hops.ttl.toNat := by omega
  exact ⟨next, hnext, h.header.trans hnext.header.symm, h.body.trans hnext.body.symm,
    h.copies.trans hnext.copies.symm, hrest⟩

theorem Poorer.trans {j k : Nat} {next : Cell512} (h : Poorer j cell next)
    (h' : Poorer k next cell') : Poorer (j + k) cell cell' where
  header := h'.header.trans h.header
  body := h'.body.trans h.body
  copies := h'.copies.trans h.copies
  ttl := by
    have := h.ttl
    have := h'.ttl
    omega

/-- A path of relays does nothing but spend the hop budget. -/
theorem forwardedBy_eq_some_iff {k : Nat} :
    forwardedBy k cell = some cell' ↔ Poorer k cell cell' := by
  induction k generalizing cell with
  | zero =>
    rw [forwardedBy, Option.some_inj]
    constructor
    · rintro rfl
      exact ⟨rfl, rfl, rfl, rfl⟩
    · intro h
      -- a cell is its hops, its header and its body
      have httl : cell'.hops.ttl = cell.hops.ttl := UInt8.toNat_inj.mp h.ttl
      have hhops : cell'.hops = cell.hops := by
        cases hcell : cell.hops
        cases hcell' : cell'.hops
        rw [hcell, hcell'] at httl
        have hcopies := h.copies
        rw [hcell, hcell'] at hcopies
        cases httl
        cases hcopies
        rfl
      cases cell
      cases cell'
      cases hhops
      cases h.header
      cases h.body
      rfl
  | succ k ih =>
    rw [forwardedBy, Option.bind_eq_some_iff]
    constructor
    · rintro ⟨next, hnext, hrest⟩
      rw [Nat.add_comm]
      exact (forwarded_eq_some_iff.mp hnext).trans (ih.mp hrest)
    · intro h
      obtain ⟨next, hnext, hrest⟩ := h.exists_first
      exact ⟨next, forwarded_eq_some_iff.mpr hnext, ih.mpr hrest⟩

/-- A relay path goes through exactly as long as the budget lasts. -/
theorem exists_forwardedBy_iff {k : Nat} :
    (∃ cell', forwardedBy k cell = some cell') ↔ k ≤ cell.hops.ttl.toNat := by
  constructor
  · rintro ⟨cell', h⟩
    have := (forwardedBy_eq_some_iff.mp h).ttl
    omega
  · intro hk
    obtain ⟨cell', h⟩ := exists_poorer hk
    exact ⟨cell', forwardedBy_eq_some_iff.mpr h⟩

/-- Only the `ttl` byte changes under way. -/
theorem Poorer.toBytes_eq {k : Nat} (h : Poorer k cell cell') :
    cell'.toBytes = cell.toBytes.set ttlAt cell'.hops.ttl (by decide) := by
  apply toBytes_eq_iff.mpr
  have hlaid := cell.laid_toBytes
  constructor
  -- every field but the TTL lies outside the byte that is set
  case version =>
    rw [Vector.getElem_set_ne _ _ (by decide)]
    exact hlaid.version
  case flags =>
    rw [Vector.getElem_set_ne _ _ (by decide), h.header]
    exact hlaid.flags
  case ttl => rw [Vector.getElem_set_self]
  case copies =>
    rw [Vector.getElem_set_ne _ _ (by decide), h.copies]
    exact hlaid.copies
  case tag =>
    rw [slice_set_of_notMem _ _ _ _ (by decide), h.header]
    exact hlaid.tag
  case nonce =>
    rw [slice_set_of_notMem _ _ _ _ (by decide), h.header]
    exact hlaid.nonce
  case ciphertext =>
    rw [slice_set_of_notMem _ _ _ _ (by decide), h.body]
    exact hlaid.ciphertext
  case mac =>
    rw [slice_set_of_notMem _ _ _ _ (by decide), h.body]
    exact hlaid.mac

theorem Poorer.toList_toBytes {k : Nat} (h : Poorer k cell cell') :
    cell'.toBytes.toList =
      cell.toBytes.toList.set 2 (UInt8.ofNat (cell.hops.ttl.toNat - k)) := by
  have httl : cell'.hops.ttl = UInt8.ofNat (cell.hops.ttl.toNat - k) := by
    rw [← h.ttl, Nat.add_sub_cancel, UInt8.ofNat_toNat]
  rw [h.toBytes_eq, Vector.toList_set, httl]

theorem Poorer.aad_eq {k : Nat} (h : Poorer k cell cell') : cell'.aad = cell.aad := by
  unfold aad
  rw [h.header]

/-! ## The associated data -/

/-- Up to the hop fields the associated data is the cell. -/
theorem getElem_aad_of_lt (cell : Cell512) {i : Nat} (hlt : i < 2) (hi : i < aadLen)
    (hi' : i < cellLen) : cell.aad[i] = cell.toBytes[i] := by
  have hlaid := cell.laid_toBytes
  have hcase : i = 0 ∨ i = 1 := by omega
  unfold aad CellHeader.aad
  rcases hcase with rfl | rfl
  · rw [hlaid.version]
    simp (disch := decide) only [getElem_write_of_notMem, getElem_write_of_mem]
    rfl
  · rw [hlaid.flags]
    simp (disch := decide) only [getElem_write_of_notMem, getElem_write_of_mem]
    rfl

/-- The rest of it is the forty bytes behind the hop fields. -/
theorem getElem_aad_of_le (cell : Cell512) {i : Nat} (hle : 2 ≤ i) (hi : i < aadLen)
    (hi' : i + 2 < cellLen) : cell.aad[i] = cell.toBytes[i + 2] := by
  have hlaid := cell.laid_toBytes
  unfold aad CellHeader.aad
  dsimp only
  by_cases htag : i < 18
  -- the tag, which `aad` writes at 2 and the cell holds at 4
  · have hlt : i - 2 < 16 := by omega
    have hbyte := slice_getElem cell.toBytes tagAt tagLen (by decide) (i - 2) hlt
    have hindex : tagAt + (i - 2) = i + 2 := by
      show 4 + (i - 2) = i + 2
      omega
    rw [getElem_write_of_notMem _ (2 + tagLen) _ hi (Or.inl htag),
      getElem_write_of_mem _ _ _ hi hle hlt]
    simp only [hlaid.tag, hindex] at hbyte
    exact hbyte
  -- the nonce, written after the tag
  · have hi42 : i < 42 := hi
    have hge : 18 ≤ i := by omega
    have hlt : i - 18 < 24 := by omega
    have hbyte := slice_getElem cell.toBytes nonceAt nonceLen (by decide) (i - 18) hlt
    have hindex : nonceAt + (i - 18) = i + 2 := by
      show 20 + (i - 18) = i + 2
      omega
    rw [getElem_write_of_mem _ (2 + tagLen) _ hi hge hlt]
    simp only [hlaid.nonce, hindex] at hbyte
    exact hbyte

/-- The associated data depends on the bytes outside the hop fields and the body, and on all
    of them. -/
theorem aad_eq_iff_getElem : cell.aad = cell'.aad ↔
    ∀ (i : Nat) (hi : i < cellLen), i < 2 ∨ 4 ≤ i ∧ i < 44 →
      cell.toBytes[i] = cell'.toBytes[i] := by
  constructor
  · intro h i hi hcase
    rcases hcase with hlt | ⟨hle, hlt⟩
    · have hi' : i < 42 := by omega
      rw [← getElem_aad_of_lt cell hlt hi' hi, ← getElem_aad_of_lt cell' hlt hi' hi]
      simp only [h]
    · obtain ⟨j, rfl⟩ := Nat.exists_eq_add_of_le' (Nat.le_trans (by decide : 2 ≤ 4) hle)
      have hj : j < 42 := by omega
      rw [← getElem_aad_of_le cell (by omega) hj hi, ← getElem_aad_of_le cell' (by omega) hj hi]
      simp only [h]
  · intro h
    apply Vector.ext
    intro i hi
    have hi42 : i < 42 := hi
    by_cases hlt : i < 2
    · have hi' : i < 512 := by omega
      rw [getElem_aad_of_lt cell hlt hi hi', getElem_aad_of_lt cell' hlt hi hi']
      exact h i hi' (Or.inl hlt)
    · have hi' : i + 2 < 512 := by omega
      rw [getElem_aad_of_le cell (by omega) hi hi', getElem_aad_of_le cell' (by omega) hi hi']
      exact h (i + 2) hi' (Or.inr (by omega))

/-- The associated data, read off the bytes of the cell. -/
theorem toList_aad (cell : Cell512) :
    cell.aad.toList = cell.toBytes.toList.take 2 ++ (cell.toBytes.toList.drop 4).take 40 := by
  apply List.ext_getElem
  · simp only [Vector.length_toList, List.length_append, List.length_take, List.length_drop]
    decide
  · intro i hi _
    rw [Vector.length_toList] at hi
    have hi42 : i < 42 := hi
    rw [Vector.getElem_toList]
    by_cases hlt : i < 2
    · have hi' : i < 512 := by omega
      rw [getElem_aad_of_lt cell hlt hi hi', List.getElem_append_left, List.getElem_take,
        Vector.getElem_toList]
      rw [List.length_take, Vector.length_toList]
      show i < min 2 512
      omega
    · have hi' : i + 2 < 512 := by omega
      have hlen : (cell.toBytes.toList.take 2).length = 2 := by
        rw [List.length_take, Vector.length_toList]
        rfl
      rw [getElem_aad_of_le cell (by omega) hi hi', List.getElem_append_right (by omega),
        List.getElem_take, List.getElem_drop, Vector.getElem_toList]
      congr 1
      omega

/-- In terms of the fields: the associated data depends on the header alone, and on all of
    it. -/
theorem aad_eq_iff_header : cell.aad = cell'.aad ↔ cell.header = cell'.header := by
  constructor
  · intro h
    -- the flags, the tag and the nonce are read off the bytes that agree
    have hbytes := aad_eq_iff_getElem.mp h
    have hlaid := cell.laid_toBytes
    have hlaid' := cell'.laid_toBytes
    have hflags : cell.header.flags = cell'.header.flags := by
      rw [← hlaid.flags, ← hlaid'.flags]
      exact hbytes 1 (by decide) (Or.inl (by decide))
    have htag : cell.header.tag = cell'.header.tag := by
      rw [← hlaid.tag, ← hlaid'.tag]
      apply Vector.ext
      intro i hi
      have hi16 : i < 16 := hi
      rw [slice_getElem _ _ _ _ _ hi, slice_getElem _ _ _ _ _ hi]
      apply hbytes
      show 4 + i < 2 ∨ 4 ≤ 4 + i ∧ 4 + i < 44
      omega
    have hnonce : cell.header.nonce = cell'.header.nonce := by
      rw [← hlaid.nonce, ← hlaid'.nonce]
      apply Vector.ext
      intro i hi
      have hi24 : i < 24 := hi
      rw [slice_getElem _ _ _ _ _ hi, slice_getElem _ _ _ _ _ hi]
      apply hbytes
      show 20 + i < 2 ∨ 4 ≤ 20 + i ∧ 20 + i < 44
      omega
    cases hheader : cell.header
    cases hheader' : cell'.header
    rw [hheader, hheader'] at hflags htag hnonce
    cases hflags
    cases htag
    cases hnonce
    rfl
  · intro h
    unfold aad
    rw [h]

end Cell512

/-- `b` is an accepted cell: it is read, and `cell` is what is read. -/
theorem toList_toBytes_of_accepted {b : List UInt8} {cell : Cell512}
    (h : Cell512.fromBytes b = .ok cell) : b = cell.toBytes.toList :=
  (Cell512.fromBytes_eq_ok_iff.mp h).symm

/-- Relaying spends hops and touches nothing else.  Of an accepted cell `b`, the first `k`
    relays pass something on exactly if `k` is within the hop budget `b[2]`, and then they
    pass on `b` with `b[2] - k` in its place, under the same associated data.  Two accepted
    cells have the same associated data exactly if they agree on the bytes that the format
    authenticates, and two cells exactly if they have the same header. -/
theorem relaying_spends_hops :
    (∀ (b : List UInt8) (cell : Cell512), Cell512.fromBytes b = .ok cell →
      ∃ ttl : UInt8, b[2]? = some ttl ∧ ∀ k : Nat,
        ((∃ cell', Cell512.forwardedBy k cell = some cell') ↔ k ≤ ttl.toNat) ∧
        ∀ cell', Cell512.forwardedBy k cell = some cell' →
          cell'.toBytes.toList = b.set 2 (UInt8.ofNat (ttl.toNat - k)) ∧
          cell'.aad.toList = b.take 2 ++ (b.drop 4).take 40) ∧
    (∀ (b b' : List UInt8) (cell cell' : Cell512), Cell512.fromBytes b = .ok cell →
      Cell512.fromBytes b' = .ok cell' →
      (cell.aad = cell'.aad ↔ ∀ i, i < 2 ∨ 4 ≤ i ∧ i < 44 → b[i]? = b'[i]?)) ∧
    ∀ cell cell' : Cell512, cell.aad = cell'.aad ↔ cell.header = cell'.header := by
  refine ⟨?_, ?_, fun cell cell' => Cell512.aad_eq_iff_header⟩
  · intro b cell hread
    -- what was parsed is what the cell prints, so `b` may be replaced by that
    obtain rfl := toList_toBytes_of_accepted hread
    refine ⟨cell.hops.ttl, ?_, ?_⟩
    · exact (getElem?_toList_eq_some_iff (by decide)).mpr cell.laid_toBytes.ttl
    · intro k
      refine ⟨Cell512.exists_forwardedBy_iff, ?_⟩
      intro cell' hforwarded
      have hpoorer := Cell512.forwardedBy_eq_some_iff.mp hforwarded
      exact ⟨hpoorer.toList_toBytes, hpoorer.aad_eq.symm ▸ cell.toList_aad⟩
  · intro b b' cell cell' hread hread'
    obtain rfl := toList_toBytes_of_accepted hread
    obtain rfl := toList_toBytes_of_accepted hread'
    rw [Cell512.aad_eq_iff_getElem]
    constructor
    · intro h i hcase
      -- the bytes that the header comes from are within the cell
      have hi : i < 512 := by omega
      exact (getElem?_toList_eq_some_iff hi).mpr (h i hi hcase) |>.trans
        ((getElem?_toList_eq_some_iff hi).mpr rfl).symm
    · intro h i hi hcase
      have heq := h i hcase
      rw [(getElem?_toList_eq_some_iff hi).mpr rfl, (getElem?_toList_eq_some_iff hi).mpr rfl,
        Option.some_inj] at heq
      exact heq

end Packet
end Quietwire
