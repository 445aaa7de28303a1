import LedgerDatabase.Common.Equiv.Chunk
import LedgerDatabase.Qldb.Qlnode

/-!
# Documents and blocks are read back as they were written

`Document.ofChunk_encode`: a document gives back its fields, the integers cut to the width of their
fields.  `QLBlock.ofChunk_encode`: a block gives back its fields and its documents, each with the
rest of the block behind it.
-/

namespace LedgerDatabase.Qldb

open Chunk

/-! ### Chunks -/

section

variable {type : ChunkType} {pre field post data junk : Bytes} {off n w v : ℕ}

theorem createChunk_eq_ok_iff {capacity : ℕ} {c : Bytes} (h : data.length = capacity) :
    createChunk type capacity data = .ok c ↔
      kMetaLength + data.length < 2 ^ 32 ∧ c = ofByteData type.toByte data := by
  subst h
  rw [createChunk]
  by_cases hsize : kMetaLength + data.length < 2 ^ 32
  · rw [if_pos ⟨rfl, hsize⟩, Except.ok.injEq]
    exact ⟨fun h => ⟨hsize, h.symm⟩, fun h => h.2.symm⟩
  · rw [if_neg fun h => hsize h.2]
    constructor
    · intro h
      cases h
    · exact fun h => absurd h.1 hsize

/-- A chunk is refused only for its size. -/
theorem createChunk_error {capacity : ℕ} {e : Fault} (h : createChunk type capacity data = .error e) :
    e = .oversize := by
  rw [createChunk] at h
  split_ifs at h
  exact (Except.error.inj h).symm

@[simp]
theorem chunkType_ofByteData : chunkType (ofByteData type.toByte data ++ junk) = type := by
  rw [chunkType, getD_four_ofByteData]
  cases type <;> rfl

/-- The data of a chunk alone. -/
theorem dataFrom_ofByteData' (b : UInt8) (h : off ≤ data.length) :
    dataFrom (ofByteData b data) off = data.drop off := by
  simpa using (dataFrom_ofByteData h : dataFrom (ofByteData b data ++ []) off = _)

theorem dataFrom_zero_ofByteData (b : UInt8) :
    dataFrom (ofByteData b data ++ junk) 0 = data ++ junk := by
  rw [dataFrom_ofByteData (Nat.zero_le _), List.drop_zero]

variable {c rest : Bytes}

theorem dataNat_of_dataFrom (h : dataFrom c off = leBytes w v ++ rest) :
    dataNat c off w = v % 256 ^ w := by
  rw [dataNat, dataBytes_of_dataFrom h (length_leBytes w v), leNat_leBytes]

theorem dataNat_lt (c : Bytes) (off w : ℕ) : dataNat c off w < 256 ^ w := by
  have hlt := leNat_lt (dataBytes c off w)
  rwa [length_dataBytes] at hlt

end

/-! ### Documents -/

namespace Document

variable {key val : Bytes} {addr : BlockAddress} {metadata : MetaData} {c junk : Bytes}

/-- The data of a document. -/
def dataOf (key val : Bytes) (addr : BlockAddress) (metadata : MetaData) : Bytes :=
  leBytes 4 addr.ledgerName.length ++ (addr.ledgerName ++ (leBytes 8 addr.seqNo ++
    (leBytes 4 (key.length + val.length + 4 * 2) ++ (leBytes 4 key.length ++ (key ++ (val ++
      (leBytes 4 metadata.docSeq ++ (leBytes 4 metadata.version ++ leBytes 8 metadata.time))))))))

/-- The fields that a document can hold: numbers of 32 and 64 bits. -/
def ofFields (key val : Bytes) (addr : BlockAddress) (metadata : MetaData) : Document where
  addr := { addr with seqNo := addr.seqNo % 256 ^ 8 }
  data := ⟨key, val⟩
  metadata :=
    { docSeq := metadata.docSeq % 256 ^ 4
      version := metadata.version % 256 ^ 4
      time := metadata.time % 256 ^ 8 }

theorem length_dataOf : (dataOf key val addr metadata).length
    = fixedLength + key.length + val.length + addr.ledgerName.length := by
  simp only [dataOf, List.length_append, length_leBytes, fixedLength]
  omega

/-- A document of a ledger whose name fits its field. -/
theorem encode_eq_ok_iff (hname : addr.ledgerName.length < 2 ^ 32) :
    encode key val addr metadata = .ok c ↔
      kMetaLength + (dataOf key val addr metadata).length < 2 ^ 32 ∧
        c = ofByteData ChunkType.kDocument.toByte (dataOf key val addr metadata) := by
  have hdata : leBytes 4 addr.ledgerName.length ++ addr.ledgerName ++ leBytes 8 addr.seqNo ++
      leBytes 4 (key.length + val.length + 4 * 2) ++ leBytes 4 key.length ++ key ++ val ++
      leBytes 4 metadata.docSeq ++ leBytes 4 metadata.version ++ leBytes 8 metadata.time
        = dataOf key val addr metadata := by
    simp only [dataOf, List.append_assoc]
  rw [encode]
  simp only [Nat.mod_eq_of_lt hname, List.take_length, hdata]
  exact createChunk_eq_ok_iff length_dataOf

theorem encode_error {e : Fault} (h : encode key val addr metadata = .error e) : e = .oversize :=
  createChunk_error h

/-- Every document has more bytes than a node of a tree. -/
theorem length_of_encode (h : encode key val addr metadata = .ok c) : 41 ≤ c.length := by
  rw [encode, createChunk] at h
  split_ifs at h with hsize
  rw [← Except.ok.inj h, length_ofByteData, hsize.1, kMetaLength, fixedLength]
  omega

theorem numBytes_of_encode (h : encode key val addr metadata = .ok c) :
    numBytes (c ++ junk) = c.length := by
  rw [encode, createChunk] at h
  split_ifs at h with hsize
  rw [← Except.ok.inj h, numBytes_ofByteData, length_ofByteData]
  rw [hsize.1]
  exact hsize.2

/-- The length of the value, as the constructor computes it. -/
theorem valBytes_eq (hk : key.length + val.length + 4 * 2 < 2 ^ 32) :
    subSize (subUInt32 (key.length + val.length + 4 * 2) key.length) (4 * 2) = val.length := by
  have hsub : subUInt32 (key.length + val.length + 4 * 2) key.length = val.length + 4 * 2 := by
    rw [subUInt32]
    omega
  rw [hsub, subSize, if_pos (by omega)]
  omega

/-- **A document gives back its fields.** -/
theorem ofChunk_encode (hname : addr.ledgerName.length < 2 ^ 32)
    (h : encode key val addr metadata = .ok c) :
    ofChunk (c ++ junk) = ofFields key val addr metadata := by
  obtain ⟨hsize, rfl⟩ := (encode_eq_ok_iff hname).mp h
  rw [length_dataOf, kMetaLength, fixedLength] at hsize
  generalize hc : ofByteData ChunkType.kDocument.toByte (dataOf key val addr metadata) ++ junk = c
  have hvals : key.length + val.length + 4 * 2 < 2 ^ 32 := by omega
  -- the fields in their order, each behind the one before it
  have h0 : dataFrom c 0 = dataOf key val addr metadata ++ junk := by
    rw [← hc, dataFrom_zero_ofByteData]
  simp only [dataOf, List.append_assoc] at h0
  have h1 := dataFrom_step h0 4 (length_leBytes ..)
  have h2 := dataFrom_step h1 _ rfl
  have h3 := dataFrom_step h2 8 (length_leBytes ..)
  have h4 := dataFrom_step h3 4 (length_leBytes ..)
  have h5 := dataFrom_step h4 4 (length_leBytes ..)
  have h6 := dataFrom_step h5 _ rfl
  have h7 := dataFrom_step h6 _ rfl
  have h8 := dataFrom_step h7 4 (length_leBytes ..)
  have h9 := dataFrom_step h8 4 (length_leBytes ..)
  simp only [Nat.zero_add, Nat.add_assoc, Nat.reduceAdd] at h1 h2 h3 h4 h5 h6 h7 h8 h9
  have hldg : dataNat c 0 4 = addr.ledgerName.length := by
    rw [dataNat_of_dataFrom h0]
    omega
  have hentry : dataNat c (4 + (addr.ledgerName.length + 8)) 4
      = key.length + val.length + 4 * 2 := by
    rw [dataNat_of_dataFrom h3]
    omega
  have hkey : dataNat c (4 + (addr.ledgerName.length + 12)) 4 = key.length := by
    rw [dataNat_of_dataFrom h4]
    omega
  rw [ofChunk, ofFields]
  simp only [hldg, Nat.add_assoc, hentry, hkey]
  simp only [← Nat.add_assoc key.length, valBytes_eq hvals]
  simp only [Nat.add_assoc, dataBytes_of_dataFrom h1 rfl, dataNat_of_dataFrom h2,
    dataBytes_of_dataFrom h5 rfl, dataBytes_of_dataFrom h6 rfl, dataNat_of_dataFrom h7,
    dataNat_of_dataFrom h8, dataNat_of_dataFrom h9]

/-- Equal documents have equal fields. -/
theorem ofFields_eq_of_encode {key' val' : Bytes} {addr' : BlockAddress} {metadata' : MetaData}
    (hname : addr.ledgerName.length < 2 ^ 32) (hname' : addr'.ledgerName.length < 2 ^ 32)
    (h : encode key val addr metadata = .ok c) (h' : encode key' val' addr' metadata' = .ok c) :
    ofFields key val addr metadata = ofFields key' val' addr' metadata' := by
  have hfields : ofChunk (c ++ []) = ofFields key val addr metadata := ofChunk_encode hname h
  rw [← hfields, ofChunk_encode hname' h']

end Document

/-! ### Blocks -/

namespace QLBlock

variable {addr : BlockAddress} {statement : Statement} {blockTime : ℕ} {blockHash previousHash : Hash}
  {documents : List Bytes} {c : Bytes}

/-- A chunk that is exactly as long as it says. -/
def Whole (d : Bytes) : Prop := ∀ junk, numBytes (d ++ junk) = d.length

theorem Whole.bytes_eq {d : Bytes} (h : Whole d) : bytes d = d := by
  have hnum : numBytes d = d.length := by simpa using h []
  rw [bytes, hnum, readBytes_of_le (by omega), List.drop_zero, List.take_length]

theorem flatMap_bytes (h : ∀ d ∈ documents, Whole d) :
    documents.flatMap bytes = documents.flatten := by
  rw [List.flatMap_def, List.map_congr_left fun d hd => (h d hd).bytes_eq, List.map_id']

theorem sum_numBytes (h : ∀ d ∈ documents, Whole d) :
    (documents.map numBytes).sum = documents.flatten.length := by
  rw [List.length_flatten]
  congr 1
  apply List.map_congr_left
  intro d hd
  simpa using h d hd []

/-- The data of a block before its documents. -/
def headOf (addr : BlockAddress) (statement : Statement) (blockTime : ℕ)
    (blockHash previousHash : Hash) (documents : List Bytes) : Bytes :=
  blockHash.bytes ++ (previousHash.bytes ++ (leBytes 8 blockTime ++
    (leBytes 4 addr.ledgerName.length ++ (addr.ledgerName ++ (leBytes 8 addr.seqNo ++
      ([statement.type] ++ (leBytes 8 statement.time ++ leBytes 4 documents.length)))))))

theorem length_headOf : (headOf addr statement blockTime blockHash previousHash documents).length
    = fixedLength + addr.ledgerName.length + 4 := by
  simp only [headOf, List.length_append, length_leBytes, fixedLength, blockHash.length_bytes,
    previousHash.length_bytes, kByteLength, List.length_singleton]
  omega

theorem encode_eq_ok_iff (hdocs : ∀ d ∈ documents, Whole d) :
    encode addr statement blockTime blockHash previousHash documents = .ok c ↔
      kMetaLength + (headOf addr statement blockTime blockHash previousHash documents ++
        documents.flatten).length < 2 ^ 32 ∧
      c = ofByteData ChunkType.kQLBlock.toByte
        (headOf addr statement blockTime blockHash previousHash documents ++ documents.flatten) := by
  rw [encode, flatMap_bytes hdocs, sum_numBytes hdocs]
  have hdata : blockHash.bytes ++ previousHash.bytes ++ leBytes 8 blockTime ++
      leBytes 4 addr.ledgerName.length ++ addr.ledgerName ++ leBytes 8 addr.seqNo ++
      [statement.type] ++ leBytes 8 statement.time ++ leBytes 4 documents.length ++
      documents.flatten
        = headOf addr statement blockTime blockHash previousHash documents ++
          documents.flatten := by
    simp only [headOf, List.append_assoc]
  rw [hdata]
  exact createChunk_eq_ok_iff (by rw [List.length_append, length_headOf])

theorem encode_error {e : Fault}
    (h : encode addr statement blockTime blockHash previousHash documents = .error e) :
    e = .oversize :=
  createChunk_error h

/-- The loop finds the documents one behind the other. -/
theorem documentsAt_of_dataFrom {rest : Bytes} : ∀ (docs : List Bytes) (off : ℕ),
    (∀ d ∈ docs, Whole d) → (∀ d ∈ docs, 4 ≤ d.length) → dataFrom c off = docs.flatten ++ rest →
      List.Forall₂ (fun p d => ∃ junk, p = d ++ junk) (documentsAt c docs.length off) docs
  | [], _, _, _, _ => List.Forall₂.nil
  | d :: docs, off, hdocs, hlen, h => by
    rw [List.flatten_cons, List.append_assoc] at h
    -- the size of a document stands at its head
    have hnum : dataNat c off 4 = d.length := by
      obtain ⟨four, more, hd, hfour⟩ : ∃ four more, d = four ++ more ∧ four.length = 4 :=
        ⟨d.take 4, d.drop 4, (List.take_append_drop ..).symm,
          List.length_take_of_le (hlen d List.mem_cons_self)⟩
      have hread : readBytes (d ++ []) 0 4 = four := by
        rw [hd, List.append_nil, readBytes_of_le (by rw [List.length_append]; omega),
          List.drop_zero, List.take_left' hfour]
      rw [← hdocs d List.mem_cons_self [], numBytes, hread, dataNat]
      have hat : dataFrom c off = four ++ (more ++ (docs.flatten ++ rest)) := by
        rw [h, hd, List.append_assoc]
      rw [dataBytes_of_dataFrom hat hfour]
    rw [List.length_cons, documentsAt, hnum]
    apply List.Forall₂.cons
    · exact ⟨_, h⟩
    · exact documentsAt_of_dataFrom docs _ (fun d hd => hdocs d (List.mem_cons_of_mem _ hd))
        (fun d hd => hlen d (List.mem_cons_of_mem _ hd)) (dataFrom_step h _ rfl)

/-- What a block can hold: numbers of 64 bits. -/
def ofFields (addr : BlockAddress) (statement : Statement) (blockTime : ℕ)
    (blockHash previousHash : Hash) (documents : List Bytes) : QLBlock where
  addr := { addr with seqNo := addr.seqNo % 256 ^ 8 }
  documents := documents
  statement := { statement with time := statement.time % 256 ^ 8 }
  blockTime := blockTime % 256 ^ 8
  blockHash := blockHash
  previousHash := previousHash

/-- A hash is read as it stands at its offset. -/
theorem dataHash_of_dataFrom {off : ℕ} {h : Hash} {rest : Bytes}
    (hat : dataFrom c off = h.bytes ++ rest) : dataHash c off = h := by
  have hbytes := dataBytes_of_dataFrom hat h.length_bytes
  cases h
  unfold dataHash
  congr 1

/-- **A block gives back its fields and its documents**, each with the rest of the block behind it. -/
theorem ofChunk_encode (hdocs : ∀ d ∈ documents, Whole d) (hlen : ∀ d ∈ documents, 4 ≤ d.length)
    (h : encode addr statement blockTime blockHash previousHash documents = .ok c) :
    ∃ docs, ofChunk c = ofFields addr statement blockTime blockHash previousHash docs ∧
      List.Forall₂ (fun p d => ∃ junk, p = d ++ junk) docs documents := by
  obtain ⟨hsize, hc⟩ := (encode_eq_ok_iff hdocs).mp h
  rw [List.length_append, length_headOf, kMetaLength, fixedLength] at hsize
  have hcount : documents.length ≤ documents.flatten.length := by
    rw [List.length_flatten, ← List.length_map (f := List.length)]
    apply List.length_le_sum_of_one_le
    intro n hn
    obtain ⟨d, hd, rfl⟩ := List.mem_map.mp hn
    exact Nat.le_trans (by omega) (hlen d hd)
  have h0 : dataFrom c 0 = headOf addr statement blockTime blockHash previousHash documents ++
      documents.flatten := by
    rw [hc, dataFrom_ofByteData' _ (Nat.zero_le _), List.drop_zero]
  simp only [headOf, List.append_assoc] at h0
  have h1 := dataFrom_step h0 20 blockHash.length_bytes
  have h2 := dataFrom_step h1 20 previousHash.length_bytes
  have h3 := dataFrom_step h2 8 (length_leBytes ..)
  have h4 := dataFrom_step h3 4 (length_leBytes ..)
  have h5 := dataFrom_step h4 _ rfl
  have h6 := dataFrom_step h5 8 (length_leBytes ..)
  have h7 := dataFrom_step h6 1 rfl
  have h8 := dataFrom_step h7 8 (length_leBytes ..)
  have h9 := dataFrom_step h8 4 (length_leBytes ..)
  simp only [Nat.zero_add, Nat.add_assoc, Nat.reduceAdd] at h1 h2 h3 h4 h5 h6 h7 h8 h9
  have hname : dataNat c 48 4 = addr.ledgerName.length := by
    rw [dataNat_of_dataFrom h3]
    omega
  have hnum : dataNat c (52 + (addr.ledgerName.length + 17)) 4 = documents.length := by
    rw [dataNat_of_dataFrom h8]
    omega
  have hprevious : dataHash c kByteLength = previousHash := dataHash_of_dataFrom h1
  have htype : dataBytes c (52 + (addr.ledgerName.length + 8)) 1 = [statement.type] :=
    dataBytes_of_dataFrom h6 rfl
  rw [← List.append_nil documents.flatten] at h9
  refine ⟨documentsAt c documents.length (52 + (addr.ledgerName.length + 21)), ?_,
    documentsAt_of_dataFrom documents _ hdocs hlen h9⟩
  rw [ofChunk, ofFields]
  simp only [hname, Nat.add_assoc, hnum, hprevious, dataHash_of_dataFrom h0, dataNat_of_dataFrom h2,
    dataBytes_of_dataFrom h4 rfl, dataNat_of_dataFrom h5, htype, dataNat_of_dataFrom h7]
  rfl

/-- The memory behind a chunk does not belong to it. -/
theorem whole_bytes {d : Bytes} (h : kMetaLength ≤ numBytes d) : Whole (bytes d) := by
  intro junk
  have hlen : (bytes d).length = numBytes d := length_readBytes ..
  rw [kMetaLength] at h
  have hnum := numBytes_bytes d
  rw [numBytes, readBytes_of_le (by omega), List.drop_zero] at hnum
  rw [numBytes, readBytes_of_le (by rw [List.length_append]; omega), List.drop_zero,
    List.take_append_of_le_length (by omega), hnum, hlen]

theorem encode_map_bytes : encode addr statement blockTime blockHash previousHash
    (documents.map bytes) = encode addr statement blockTime blockHash previousHash documents := by
  have hnum : (documents.map bytes).map numBytes = documents.map numBytes := by
    rw [List.map_map]
    exact List.map_congr_left fun d _ => numBytes_bytes d
  have hbytes : (documents.map bytes).flatMap bytes = documents.flatMap bytes := by
    rw [List.flatMap_map]
    exact List.flatMap_congr fun d _ => bytes_bytes d
  rw [encode, encode, hnum, hbytes, List.length_map]

end QLBlock

/-! ### Round trips -/

/-- A document whose encoding fits a chunk is read back. -/
theorem Document.exists_encode {key val : Bytes} {addr : BlockAddress} {metadata : MetaData}
    (hseq : addr.seqNo < 256 ^ 8) (hdocSeq : metadata.docSeq < 256 ^ 4)
    (hversion : metadata.version < 256 ^ 4) (htime : metadata.time < 256 ^ 8)
    (hsize : kMetaLength + (fixedLength + key.length + val.length + addr.ledgerName.length) < 2 ^ 32) :
    ∃ c, encode key val addr metadata = .ok c ∧ ofChunk c = ⟨addr, ⟨key, val⟩, metadata⟩ := by
  have hname : addr.ledgerName.length < 2 ^ 32 := by omega
  have hencode : encode key val addr metadata =
      .ok (ofByteData ChunkType.kDocument.toByte (dataOf key val addr metadata)) :=
    (encode_eq_ok_iff hname).mpr ⟨by rw [length_dataOf]; exact hsize, rfl⟩
  refine ⟨_, hencode, ?_⟩
  generalize ofByteData ChunkType.kDocument.toByte (dataOf key val addr metadata) = c at hencode ⊢
  have hfields : ofChunk (c ++ []) = _ := ofChunk_encode hname hencode
  rwa [List.append_nil, ofFields, Nat.mod_eq_of_lt hseq, Nat.mod_eq_of_lt hdocSeq,
    Nat.mod_eq_of_lt hversion, Nat.mod_eq_of_lt htime] at hfields

/-- A block that fits a chunk is read back, with its documents. -/
theorem QLBlock.exists_encode {addr : BlockAddress} {statement : Statement} {blockTime : ℕ}
    {blockHash previousHash : Hash} {documents : List Bytes} (hseq : addr.seqNo < 256 ^ 8)
    (hstatement : statement.time < 256 ^ 8) (htime : blockTime < 256 ^ 8)
    (hdocs : ∀ d ∈ documents, kMetaLength ≤ numBytes d)
    (hsize : kMetaLength +
      (fixedLength + addr.ledgerName.length + 4 + (documents.map numBytes).sum) < 2 ^ 32) :
    ∃ c docs, encode addr statement blockTime blockHash previousHash documents = .ok c ∧
      ofChunk c = ⟨addr, docs, statement, blockTime, blockHash, previousHash⟩ ∧
      List.Forall₂ (fun p d => bytes p = bytes d) docs documents := by
  have hwhole : ∀ d ∈ documents.map bytes, Whole d := by
    rw [List.forall_mem_map]
    exact fun d hd => whole_bytes (hdocs d hd)
  have hlen : ∀ d ∈ documents.map bytes, 4 ≤ d.length := by
    rw [List.forall_mem_map]
    intro d hd
    have hnum : (bytes d).length = numBytes d := length_readBytes ..
    rw [hnum]
    exact Nat.le_trans (by decide) (hdocs d hd)
  have hsum : (documents.map bytes).flatten.length = (documents.map numBytes).sum := by
    rw [← sum_numBytes hwhole, List.map_map]
    congr 1
    exact List.map_congr_left fun d _ => numBytes_bytes d
  have hencode : encode addr statement blockTime blockHash previousHash (documents.map bytes) =
      .ok (ofByteData ChunkType.kQLBlock.toByte (headOf addr statement blockTime blockHash
        previousHash (documents.map bytes) ++ (documents.map bytes).flatten)) :=
    (encode_eq_ok_iff hwhole).mpr
      ⟨by rw [List.length_append, length_headOf, hsum]; exact hsize, rfl⟩
  obtain ⟨docs, hfields, hread⟩ := ofChunk_encode hwhole hlen hencode
  rw [encode_map_bytes] at hencode
  rw [ofFields, Nat.mod_eq_of_lt hseq, Nat.mod_eq_of_lt hstatement, Nat.mod_eq_of_lt htime] at hfields
  refine ⟨_, docs, hencode, hfields, ?_⟩
  rw [List.forall₂_map_right_iff] at hread
  rw [List.forall₂_iff_get] at hread ⊢
  refine ⟨hread.1, ?_⟩
  intro i hi hi'
  obtain ⟨junk, hp⟩ := hread.2 i hi hi'
  rw [hp, bytes, whole_bytes (hdocs _ (List.get_mem documents ⟨i, hi'⟩)) junk, readBytes_of_le (by simp),
    List.drop_zero, List.take_left]

/-- **Documents and blocks are read back.** -/
theorem encode_ofChunk :
    (∀ (key val name : Bytes) (seq time : UInt64) (docSeq version : UInt32),
      kMetaLength + (Document.fixedLength + key.length + val.length + name.length) < 2 ^ 32 →
      ∃ c, Document.encode key val ⟨name, seq.toNat⟩ ⟨docSeq.toNat, version.toNat, time.toNat⟩ = .ok c ∧
        Document.ofChunk c =
          ⟨⟨name, seq.toNat⟩, ⟨key, val⟩, ⟨docSeq.toNat, version.toNat, time.toNat⟩⟩) ∧
    ∀ (name : Bytes) (seq stmtTime blockTime : UInt64) (stmtType : UInt8)
      (blockHash previousHash : Hash) (documents : List Bytes),
      (∀ d ∈ documents, kMetaLength ≤ numBytes d) →
      kMetaLength + (QLBlock.fixedLength + name.length + 4 + (documents.map numBytes).sum) < 2 ^ 32 →
      ∃ c docs, QLBlock.encode ⟨name, seq.toNat⟩ ⟨stmtType, stmtTime.toNat⟩ blockTime.toNat blockHash
          previousHash documents = .ok c ∧
        QLBlock.ofChunk c = ⟨⟨name, seq.toNat⟩, docs, ⟨stmtType, stmtTime.toNat⟩, blockTime.toNat,
          blockHash, previousHash⟩ ∧
        (QLBlock.ofChunk c).getDocumentSize = documents.length ∧
        ∀ i d, documents[i]? = some d →
          ∃ p, (QLBlock.ofChunk c).getDocumentBySeq i = .ok p ∧ bytes p = bytes d := by
  constructor
  · intro key val name seq time docSeq version hsize
    exact Document.exists_encode seq.toNat_lt docSeq.toNat_lt version.toNat_lt time.toNat_lt hsize
  · intro name seq stmtTime blockTime stmtType blockHash previousHash documents hdocs hsize
    have hseq : (⟨name, seq.toNat⟩ : BlockAddress).seqNo < 256 ^ 8 := seq.toNat_lt
    have hstmt : (⟨stmtType, stmtTime.toNat⟩ : Statement).time < 256 ^ 8 := stmtTime.toNat_lt
    obtain ⟨c, docs, hencode, hfields, hread⟩ :=
      QLBlock.exists_encode hseq hstmt blockTime.toNat_lt hdocs hsize
    refine ⟨c, docs, hencode, hfields, ?_, ?_⟩
    · rw [hfields]
      exact hread.length_eq
    · intro i d hi
      obtain ⟨hlt, rfl⟩ := List.getElem?_eq_some_iff.mp hi
      have hlt' : i < docs.length := by rwa [hread.length_eq]
      rw [hfields]
      exact ⟨docs[i], at?_of_lt hlt', hread.get hlt' hlt⟩

/-- A document, and a block that holds a chunk of five bytes. -/
theorem encode_ofChunk_small :
    (∃ c, Document.encode [1] [2] ⟨[3], 4⟩ ⟨5, 6, 7⟩ = .ok c ∧
      Document.ofChunk c = ⟨⟨[3], 4⟩, ⟨[1], [2]⟩, ⟨5, 6, 7⟩⟩) ∧
    ∃ c docs, QLBlock.encode ⟨[3], 4⟩ ⟨1, 8⟩ 9 (Hash.fromBase32 []) (Hash.fromBase32 [])
        [ofByteData 8 []] = .ok c ∧
      QLBlock.ofChunk c = ⟨⟨[3], 4⟩, docs, ⟨1, 8⟩, 9, Hash.fromBase32 [], Hash.fromBase32 []⟩ ∧
      (QLBlock.ofChunk c).getDocumentSize = 1 ∧
      ∀ i d, [ofByteData 8 []][i]? = some d →
        ∃ p, (QLBlock.ofChunk c).getDocumentBySeq i = .ok p ∧ bytes p = bytes d :=
  ⟨encode_ofChunk.1 [1] [2] [3] 4 7 5 6 (by decide),
    encode_ofChunk.2 [3] 4 8 9 1 (Hash.fromBase32 []) (Hash.fromBase32 []) [ofByteData 8 []]
      (by decide) (by decide)⟩

/-- A key of 4 GiB. -/
theorem not_encode_ofChunk : ¬ ∃ c,
    Document.encode (List.replicate (2 ^ 32) 0) [] ⟨[], 0⟩ ⟨0, 0, 0⟩ = .ok c ∧
      Document.ofChunk c = ⟨⟨[], 0⟩, ⟨List.replicate (2 ^ 32) 0, []⟩, ⟨0, 0, 0⟩⟩ := by
  rintro ⟨c, hencode, -⟩
  obtain ⟨hsize, -⟩ := (Document.encode_eq_ok_iff (by decide)).mp hencode
  rw [Document.length_dataOf, List.length_replicate] at hsize
  omega

end LedgerDatabase.Qldb
