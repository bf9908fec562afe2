/-
# What a symbol says

A symbol that a build returns is read back completely.  From its grid alone a reader
recovers the payload (`payload?_of_build`), and so no two payloads build the same
symbol; the data region spells the arranged blocks of the data codewords
(`codewords_of_build`); and two symbols of one version and level with different
payloads have a block in which they differ so much that damage to half of the error
correction codewords leaves the block closer to its own symbol than to the other one
(`exists_distant_block`).
-/

import QRCode.Proofs.Building

namespace QRCode

namespace Settings

variable {s : Settings} {v : Version} {plan : BlockPlan} {m : Mask} {q : Symbol}

/-! ### The payload -/

/-- The data codewords of a payload that fits spell its segment. -/
theorem readSegment_dataBytes (h : s.Fits v) :
    ∃ rest, readSegment v ((s.dataBytes v).flatMap byteBits) = some ((s.mode, s.payload), rest) := by
  refine ⟨fillBits (v.dataCodewords s.level) (Sizing.segmentBits s.mode v s.payload.length), ?_⟩
  rw [flatMap_dataBytes h, dataStream,
    readSegment_segment (count_lt_of_segmentBits_le h) s.contains_mode]

/-- **Different payloads have different data codewords.** -/
theorem payload_eq_of_dataBytes {t : Settings} (hs : s.Fits v) (ht : t.Fits v)
    (h : s.dataBytes v = t.dataBytes v) : s.payload = t.payload := by
  obtain ⟨rest, hread⟩ := readSegment_dataBytes hs
  obtain ⟨rest', hread'⟩ := readSegment_dataBytes ht
  rw [h, hread'] at hread
  have hpair := congrArg Prod.fst (Option.some.inj hread)
  exact (congrArg Prod.snd hpair).symm

/-- **The blocks are found in the symbol.** -/
theorem blocks?_symbol (h : s.Built v plan m) :
    Reader.blocks? (s.symbol v plan m).grid v s.level m = some (plan.blocks (s.dataBytes v)) :=
  Reader.blocks?_drawnSymbol h.plan (length_dataBytes h.fits)

/-- **The payload is found in the symbol**, by either copy of its format information. -/
theorem payload?_symbol (h : s.Built v plan m) {copy : List (Nat × Nat)}
    (hcopy : copy ∈ Reader.formatCopies v.width) :
    Reader.payload? (s.symbol v plan m).grid copy = some s.payload := by
  have hformat : Reader.format? (s.symbol v plan m).grid copy = some (s.level, m) :=
    Reader.format?_drawnSymbol hcopy
  have hversion : Reader.version? (s.symbol v plan m).version.width = some v := Reader.version?_width v
  have hdata := (BlockPlan.divide_eq_ok h.plan).flatMap_data (length_dataBytes h.fits)
  obtain ⟨rest, hread⟩ := readSegment_dataBytes h.fits
  unfold Reader.payload?
  rw [hversion]
  simp only [Option.bind_eq_bind, Option.bind_some, hformat, blocks?_symbol h, hdata, hread]
  rfl

/-- **A symbol determines its payload.** -/
theorem payload_eq_of_build {t : Settings} (hs : s.build = .ok q) (ht : t.build = .ok q) :
    t.payload = s.payload := by
  obtain ⟨v, plan, m, hbuilt, rfl⟩ := exists_built hs
  obtain ⟨w, plan', m', hbuilt', heq⟩ := exists_built ht
  have hcopy : formatMain ∈ Reader.formatCopies v.width := List.mem_cons_self
  have hcopy' : formatMain ∈ Reader.formatCopies w.width := List.mem_cons_self
  have hread := payload?_symbol hbuilt hcopy
  rw [heq, payload?_symbol hbuilt' hcopy'] at hread
  exact Option.some.inj hread

end Settings

/-- **A built symbol is decodable.**  A reader that looks only at the grid finds the
version by the width, by either copy of the format information the only level and
mask with those fifteen bits, and the payload; so different payloads never build the
same symbol. -/
theorem payload?_of_build {s : Settings} {q : Symbol} (h : s.build = .ok q) :
    Reader.version? q.version.width = some q.version ∧
      (∀ copy ∈ Reader.formatCopies q.version.width,
        (∃ bits, Reader.bitsAt? q.grid copy = some bits ∧ bits.length = formatLength ∧
          ∀ level m, formatInfo level m = numberOf bits ↔ level = q.level ∧ m = q.mask) ∧
        Reader.format? q.grid copy = some (q.level, q.mask) ∧
        Reader.payload? q.grid copy = some s.payload) ∧
      ∀ t : Settings, t.build = .ok q → t.payload = s.payload := by
  refine ⟨Reader.version?_width q.version, fun copy hcopy => ?_, fun t ht => Settings.payload_eq_of_build h ht⟩
  obtain ⟨v, plan, m, hbuilt, rfl⟩ := Settings.exists_built h
  refine ⟨⟨_, Reader.bitsAt?_drawnSymbol hcopy, BitString.length_bitsOf _ _, fun level m' => ?_⟩,
    Reader.format?_drawnSymbol hcopy, Settings.payload?_symbol hbuilt hcopy⟩
  rw [numberOf_bitsOf, Nat.mod_eq_of_lt (formatInfo_lt s.level m)]
  constructor
  · exact formatInfo_injective
  · rintro ⟨rfl, rfl⟩
    rfl

/-- The letter `A` is built and read back. -/
theorem payload?_of_build_letter :
    ∃ q, Settings.build { payload := [0x41] } = .ok q ∧
      ∀ copy ∈ Reader.formatCopies q.version.width, Reader.payload? q.grid copy = some [0x41] := by
  obtain ⟨plan, m, hbuild, -⟩ :=
    Settings.build_of_fits (s := { payload := [0x41] }) (v := .ofIndex 0) rfl (by decide)
  exact ⟨_, hbuild, fun copy hcopy => ((payload?_of_build hbuild).2.1 copy hcopy).2.2⟩

/-! ### The codewords -/

/-- What the data region of a symbol says: blocks that carry a payload. -/
structure Symbol.Spells (q : Symbol) (payload : List UInt8) (blocks : List Block) : Prop where
  /-- Unmasked and read along the path, the data region is the interleaved data, then
  the interleaved error correction codewords, and nothing but zeros after them. -/
  region : ∃ zeros, Reader.dataBits? q.grid q.version q.mask =
    some ((interleave (blocks.map Block.data) ++ interleave (blocks.map Block.ecc)).flatMap byteBits ++
      List.replicate zeros false)
  /-- The codewords fill the symbol. -/
  filled : ((interleave (blocks.map Block.data) ++
    interleave (blocks.map Block.ecc)).flatMap byteBits).length = 8 * q.version.totalCodewords
  /-- The data of the blocks, one after the other, is the terminated segment. -/
  stream : ∃ stream, (encodeIn q.version q.level (Mode.select payload) payload).result = .ok stream ∧
    blocks.flatMap Block.data = stream.bytes.toList ∧ stream.length = 8 * stream.bytes.size
  /-- There are as many blocks as the version has at the level. -/
  count : blocks.length = q.version.blockCount q.level
  /-- The data is shared out as the plan says. -/
  shares : ∃ plan, BlockPlan.ofVersion q.version q.level = .ok plan ∧
    blocks.map (fun b => b.data.length) = plan.dataLengths
  /-- Every block has its error correction codewords. -/
  ecc : ∀ b ∈ blocks, b.ecc.length = q.version.eccPerBlock q.level
  /-- Every block is a word of the code. -/
  syndromes : ∀ b ∈ blocks, b.syndromes = List.replicate (q.version.eccPerBlock q.level) 0

/-- **The codewords of a built symbol.**  The data region holds every place that is
not reserved, once, and spells blocks that carry the payload; they are the blocks that
a reader finds. -/
theorem codewords_of_build {s : Settings} {q : Symbol} (h : s.build = .ok q) :
    ((dataPlaces q.version).Nodup ∧ ∀ p, p ∈ dataPlaces q.version ↔
        p.1 < q.version.width ∧ p.2 < q.version.width ∧ isReserved q.version p = false) ∧
      ∃ blocks, q.Spells s.payload blocks ∧
        Reader.blocks? q.grid q.version q.level q.mask = some blocks := by
  refine ⟨⟨nodup_dataPlaces q.version, fun p => mem_dataPlaces_iff⟩, ?_⟩
  obtain ⟨v, plan, m, hbuilt, rfl⟩ := Settings.exists_built h
  have hlen := Settings.length_dataBytes hbuilt.fits
  have hcovers := BlockPlan.divide_eq_ok hbuilt.plan
  have hfits : Sizing.segmentBits s.mode v s.payload.length ≤ v.dataBits s.level := hbuilt.fits
  have hfilled := hcovers.length_arrange hlen
  refine ⟨plan.blocks (s.dataBytes v), ⟨⟨_, Reader.dataBits?_drawnSymbol ?_⟩, ?_, ?_,
    hcovers.length_blocks hlen, ⟨plan, hbuilt.plan, hcovers.map_length_data hlen⟩,
    fun b hb => hcovers.length_ecc hlen hb, fun b hb => hcovers.syndromes_eq hb⟩, Settings.blocks?_symbol hbuilt⟩
  · exact Reader.length_codewordBits_le hfilled
  · exact (length_flatMap_byteBits _).trans (congrArg (8 * ·) hfilled)
  · refine ⟨.ofBits (dataStream v s.level s.mode s.payload), ?_, hcovers.flatMap_data hlen, ?_⟩
    · exact congrArg Traced.result ((encodeIn_eq s.contains_mode).trans (if_pos hfits))
    · have hsize : (s.dataBytes v).length = _ := Array.length_toList
      rw [← hsize, hlen, BitString.length_ofBits, length_dataStream hfits]

/-- The symbol of the letter `A` spells blocks that carry it. -/
theorem codewords_of_build_letter :
    ∃ q, Settings.build { payload := [0x41] } = .ok q ∧ ∃ blocks, q.Spells [0x41] blocks ∧
      Reader.blocks? q.grid q.version q.level q.mask = some blocks := by
  obtain ⟨plan, m, hbuild, -⟩ :=
    Settings.build_of_fits (s := { payload := [0x41] }) (v := .ofIndex 0) rfl (by decide)
  exact ⟨_, hbuild, (codewords_of_build hbuild).2⟩

/-! ### Damage -/

/-- Different lists of one length differ at some place. -/
theorem exists_getElem?_ne {α : Type} {a b : List α} (hlen : a.length = b.length) (hne : a ≠ b) :
    ∃ (k : Nat) (x y : α), a[k]? = some x ∧ b[k]? = some y ∧ x ≠ y := by
  by_contra hall
  refine hne (List.ext_getElem hlen fun k hk hk' => ?_)
  by_contra hxy
  exact hall ⟨k, a[k], b[k], List.getElem?_eq_getElem hk, List.getElem?_eq_getElem hk', hxy⟩

/-- **Different blocks of one shape are far apart.** -/
theorem Block.lt_distance_of_ne {b b' : Block} {ecc : Nat} (hdata : b.data.length = b'.data.length)
    (hecc : b.ecc.length = ecc) (hecc' : b'.ecc.length = ecc) (hmax : b.data.length + ecc ≤ 255)
    (hs : b.syndromes = List.replicate ecc 0) (hs' : b'.syndromes = List.replicate ecc 0)
    (hne : b ≠ b') : ecc < distance b.codewords b'.codewords := by
  have hwords : b.codewords ≠ b'.codewords := by
    intro h
    obtain ⟨h₁, h₂⟩ := List.append_inj h hdata
    exact hne (congr (congrArg Block.mk h₁) h₂)
  unfold Block.syndromes at hs hs'
  rw [hecc] at hs
  rw [hecc'] at hs'
  exact ReedSolomon.lt_distance_of_bytes (by simp [codewords, hdata, hecc, hecc'])
    (by simpa [codewords, hecc] using hmax) (hs.trans hs'.symm) hwords

/-- **Different data make blocks that are far apart**, at some index. -/
theorem BlockPlan.Covers.exists_distant {v : Version} {level : Level} {plan : BlockPlan}
    (h : plan.Covers v.totalCodewords (v.dataCodewords level) (v.blockCount level))
    {data data' : List UInt8} (hlen : data.length = v.dataCodewords level)
    (hlen' : data'.length = v.dataCodewords level) (hne : data ≠ data') :
    ∃ (k : Nat) (b b' : Block), (plan.blocks data)[k]? = some b ∧ (plan.blocks data')[k]? = some b' ∧
      b.codewords.length = b'.codewords.length ∧
      v.eccPerBlock level < distance b.codewords b'.codewords := by
  have hblocks : plan.blocks data ≠ plan.blocks data' := by
    intro heq
    have hdata := congrArg (List.flatMap Block.data) heq
    rw [h.flatMap_data hlen, h.flatMap_data hlen'] at hdata
    exact hne hdata
  have hcount : (plan.blocks data).length = (plan.blocks data').length := by
    rw [h.length_blocks hlen, h.length_blocks hlen']
  obtain ⟨k, b, b', hb, hb', hbb⟩ := exists_getElem?_ne hcount hblocks
  have hmem := List.mem_of_getElem? hb
  have hmem' := List.mem_of_getElem? hb'
  have hecc := h.length_ecc hlen hmem
  have hecc' := h.length_ecc hlen' hmem'
  -- both blocks are cut by the same plan, so they have the same share of data
  have hshare := h.map_length_data hlen
  have hlengths := congrArg (fun lengths => lengths[k]?) (hshare.trans (h.map_length_data hlen').symm)
  simp only [List.getElem?_map, hb, hb', Option.map_some, Option.some.injEq] at hlengths
  have hmax : b.data.length + plan.eccPerBlock ≤ 255 := by
    refine h.length_le ?_
    rw [← hshare]
    exact List.mem_map_of_mem hmem
  rw [h.eccPerBlock_eq] at hmax
  refine ⟨k, b, b', hb, hb', ?_, Block.lt_distance_of_ne hlengths hecc hecc' hmax
    (h.syndromes_eq hmem) (h.syndromes_eq hmem') hbb⟩
  simp only [Block.codewords, List.length_append, hlengths, hecc, hecc']

/-- A word closer to one of two words than half their distance is closer to that one. -/
theorem distance_lt_of_half {α : Type} [DecidableEq α] {w a b : List α} {k : Nat}
    (hwa : w.length = a.length) (hab : a.length = b.length) (hfar : k < distance a b)
    (hnear : distance w a ≤ k / 2) : distance w a < distance w b := by
  have htriangle := distance_triangle hwa.symm (hwa.trans hab)
  rw [distance_comm a w] at htriangle
  omega

/-- **Damage tolerance.**  Two symbols of one version and level that carry different
payloads have, at some index, blocks that differ in more codewords than there are for
error correction; so when no more than half of those are damaged in the block of the
first symbol, it still is closer to what it was than to the block of the second. -/
theorem exists_distant_block {s t : Settings} {q q' : Symbol} (hs : s.build = .ok q)
    (ht : t.build = .ok q') (hversion : q.version = q'.version) (hlevel : q.level = q'.level)
    (hne : s.payload ≠ t.payload) :
    ∃ (blocks blocks' : List Block) (k : Nat) (b b' : Block),
      Reader.blocks? q.grid q.version q.level q.mask = some blocks ∧
      Reader.blocks? q'.grid q'.version q'.level q'.mask = some blocks' ∧
      blocks[k]? = some b ∧ blocks'[k]? = some b' ∧
      b.codewords.length = b'.codewords.length ∧
      q.version.eccPerBlock q.level + 1 ≤ distance b.codewords b'.codewords ∧
      ∀ damaged : List UInt8, damaged.length = b.codewords.length →
        distance damaged b.codewords ≤ q.version.eccPerBlock q.level / 2 →
        distance damaged b.codewords < distance damaged b'.codewords := by
  obtain ⟨v, plan, m, hbuilt, rfl⟩ := Settings.exists_built hs
  obtain ⟨w, plan', m', hbuilt', rfl⟩ := Settings.exists_built ht
  obtain rfl : v = w := hversion
  have hlevels : s.level = t.level := hlevel
  have hplan := hbuilt.plan
  rw [hlevels, hbuilt'.plan] at hplan
  obtain rfl := Except.ok.inj hplan
  have hlen' : (t.dataBytes v).length = v.dataCodewords s.level :=
    hlevels ▸ Settings.length_dataBytes hbuilt'.fits
  have hdata : s.dataBytes v ≠ t.dataBytes v := fun h =>
    hne (Settings.payload_eq_of_dataBytes hbuilt.fits hbuilt'.fits h)
  obtain ⟨k, b, b', hb, hb', hlength, hfar⟩ := (BlockPlan.divide_eq_ok hbuilt.plan).exists_distant
    (Settings.length_dataBytes hbuilt.fits) hlen' hdata
  exact ⟨_, _, k, b, b', Settings.blocks?_symbol hbuilt, Settings.blocks?_symbol hbuilt', hb, hb', hlength,
    hfar, fun damaged hdamaged hnear => distance_lt_of_half hdamaged hlength hfar hnear⟩

/-- The symbols of the letters `A` and `B` have blocks at distance eleven. -/
theorem exists_distant_block_letters :
    ∃ q q', Settings.build { payload := [0x41] } = .ok q ∧ Settings.build { payload := [0x42] } = .ok q' ∧
      ∃ (blocks blocks' : List Block) (k : Nat) (b b' : Block),
        Reader.blocks? q.grid q.version q.level q.mask = some blocks ∧
        Reader.blocks? q'.grid q'.version q'.level q'.mask = some blocks' ∧
        blocks[k]? = some b ∧ blocks'[k]? = some b' ∧ 11 ≤ distance b.codewords b'.codewords := by
  obtain ⟨plan, m, hbuild, -⟩ :=
    Settings.build_of_fits (s := { payload := [0x41] }) (v := .ofIndex 0) rfl (by decide)
  obtain ⟨plan', m', hbuild', -⟩ :=
    Settings.build_of_fits (s := { payload := [0x42] }) (v := .ofIndex 0) rfl (by decide)
  obtain ⟨blocks, blocks', k, b, b', hblocks, hblocks', hb, hb', -, hfar, -⟩ :=
    exists_distant_block hbuild hbuild' rfl rfl (by decide)
  exact ⟨_, _, hbuild, hbuild', blocks, blocks', k, b, b', hblocks, hblocks', hb, hb', hfar⟩

end QRCode
