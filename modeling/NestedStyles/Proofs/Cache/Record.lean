import NestedStyles.Proofs.Json.Tokens
import NestedStyles.Proofs.OrderedMap
import NestedStyles.Cache.Table
/-!
# Record files read back

A record's file holds its key, token and sequence number, and says them to whoever reads it,
whatever characters the key and the token have.

* `Record.decode?_encode`: the contents of a record's file spell the record, if its number has 64
  bits; `Record.eq_of_decode?`: they spell no other;
* `Record.fileName_injective`, `isRecordName_fileName`: different numbers have different files, all
  of which are read;
* `tableOfRecords_recordsOf`: the records of a table, numbered in its order, spell the table;
* `get?_tableOfRecords`, `mem_keys_tableOfRecords`: what any records spell, with gaps, repeated keys
  and repeated numbers, and in any order;
* `get?_tableOfRecords_append`: a further record of another key does not change a token.
-/
namespace NestedStyles.Cache

open Json (Spells Token quotedChars)

/-! ## Contents -/

/-- The tokens of a record's contents. -/
def Record.tokens (r : Record) : List Token :=
  [.openBrace, .string (some "key"), .colon, .string (some r.key), .comma, .string (some "token"),
   .colon, .string (some r.token), .comma, .string (some "seq"), .colon,
   .number (Json.digitsValue? r.seq), .closeBrace]

theorem Record.toList_encode (r : Record) :
    r.encode.toList = '\x7b' ::
      (quotedChars "key".toList ++ ':' :: (quotedChars r.key.toList ++ ',' ::
      (quotedChars "token".toList ++ ':' :: (quotedChars r.token.toList ++ ',' ::
        (quotedChars "seq".toList ++ ':' :: (Nat.toDigits 10 r.seq ++ ['\x7d'])))))) := by
  simp only [Record.encode, String.toList_append, Json.quoted, String.toList_ofList, toList_decimal,
    List.append_assoc]
  rfl

theorem Record.spells_encode (r : Record) : Spells r.encode.toList r.tokens := by
  have hend : Spells ['\x7d'] [.closeBrace] := .cons rfl rfl (Nat.le_refl _) .nil
  have mark : ∀ {c : Char} {t : Token} {rest : List Char} {ts : List Token},
      Json.isSpace c = false → Json.readToken? (c :: rest) = some (t, rest) →
      Spells rest ts → Spells (c :: rest) (t :: ts) :=
    fun hc ht hs => .cons hc ht (Nat.le_refl _) hs
  have quoted : ∀ (s : String) {rest : List Char} {ts : List Token}, Spells rest ts →
      Spells (quotedChars s.toList ++ rest) (.string (some s) :: ts) := by
    intro s rest ts hs
    have h := @Spells.quoted s.toList rest ts hs
    rwa [String.ofList_toList] at h
  rw [Record.toList_encode]
  have hseq := quoted "seq" (mark (c := ':') rfl rfl (hend.digits r.seq))
  have htoken := quoted "token"
    (mark (c := ':') rfl rfl (quoted r.token (mark (c := ',') rfl rfl hseq)))
  have hkey := quoted "key"
    (mark (c := ':') rfl rfl (quoted r.key (mark (c := ',') rfl rfl htoken)))
  exact mark rfl rfl hkey

/-- The outline of a record's contents. -/
def Record.outline (r : Record) : Json.Outline :=
  .object [(some "key", .string (some r.key)), (some "token", .string (some r.token)),
    (some "seq", .number (Json.digitsValue? r.seq))]

/-- The value of a record's contents, with the number that is read. -/
def Record.value (r : Record) (number : Json.Number) : Json.Value :=
  .object [("key", .string r.key), ("token", .string r.token), ("seq", .number number)]

theorem Record.outline?_encode (r : Record) : Json.outline? r.encode = some r.outline := by
  rw [Json.outline?, Json.tokens?_of_spells r.spells_encode]
  rfl

theorem Record.only?_outline (r : Record) : r.outline.only? fieldNames = some r.outline := rfl

theorem Record.value?_outline (r : Record) :
    r.outline.value? Json.depthLimit = (Json.digitsValue? r.seq).map r.value := by
  unfold outline
  rw [Json.Outline.value?, if_neg (by decide)]
  cases h : Json.digitsValue? r.seq <;>
    simp [Json.Outline.memberValues?, Json.Outline.value?, value]

theorem Record.ofJson?_value (r : Record) (number : Json.Number) : Record.ofJson? (r.value number)
    = (Json.Value.nat? UInt64.size (.number number)).map (Record.mk r.key r.token) := by
  have hfields : (r.value number).fields? fieldNames
      = some [some (.string r.key), some (.string r.token), some (.number number)] := rfl
  rw [Record.ofJson?, hfields, Option.bind_eq_bind, Option.bind_some]
  dsimp only [Json.Value.string?]
  cases Json.Value.nat? UInt64.size (.number number) <;> rfl

theorem Record.decode?_encode_eq (r : Record) : Record.decode? r.encode
    = (Json.digitsValue? r.seq).bind fun number =>
        (Json.Value.nat? UInt64.size (.number number)).map (Record.mk r.key r.token) := by
  have hparse : Json.parseOnly? fieldNames r.encode = (Json.digitsValue? r.seq).map r.value := by
    rw [Json.parseOnly?, r.outline?_encode, Option.bind_eq_bind, Option.bind_some, r.only?_outline,
      Option.bind_some, r.value?_outline]
  rw [Record.decode?, hparse, Option.bind_map]
  exact congrArg _ (funext r.ofJson?_value)

/-- The contents of a record's file spell the record. -/
theorem Record.decode?_encode (r : Record) (h : r.seq < UInt64.size) :
    Record.decode? r.encode = some r := by
  have hseq : Json.Value.nat? UInt64.size (.number (.int r.seq)) = some r.seq := by
    rw [Json.Value.nat?, if_pos ⟨by omega, by omega⟩, Int.toNat_natCast]
  rw [r.decode?_encode_eq, Json.digitsValue?_of_lt h, Option.bind_some, hseq, Option.map_some]

/-- A record whose number has more than 64 bits is not read as another one. -/
theorem Record.eq_of_decode? {r r' : Record} (h : Record.decode? r.encode = some r') : r' = r := by
  rw [r.decode?_encode_eq] at h
  obtain ⟨number, hnumber, h⟩ := Option.bind_eq_some_iff.1 h
  obtain ⟨n, hn, rfl⟩ := Option.map_eq_some_iff.1 h
  cases number with
  | real x => cases hn
  | int m =>
    cases Json.eq_of_digitsValue? hnumber
    rw [Json.Value.nat?] at hn
    split at hn
    · cases hn
      rfl
    · cases hn

/-- The contents of a file tell records with one number apart, also if they are not read. -/
theorem Record.eq_of_encode {r r' : Record} (hseq : r.seq = r'.seq) (h : r.encode = r'.encode) :
    r = r' := by
  have houtline : r.outline = r'.outline := by
    have hsome := r.outline?_encode
    rw [h, r'.outline?_encode] at hsome
    exact (Option.some.inj hsome).symm
  obtain ⟨key, token, seq⟩ := r
  obtain ⟨key', token', seq'⟩ := r'
  obtain rfl : seq = seq' := hseq
  unfold outline at houtline
  obtain ⟨rfl, rfl⟩ : key = key' ∧ token = token' := by simpa using houtline
  rfl

/-! ## Names -/

theorem Record.fileName_injective {m n : Nat} (h : Record.fileName m = Record.fileName n) : m = n :=
  padded_injective ((String.append_left_inj _).1 h)

theorem padded_ne_nil (n : Nat) : (padded n).toList ≠ [] := by
  rw [padded, String.toList_ofList]
  exact List.append_ne_nil_of_right_ne_nil _ Nat.toDigits_ne_nil

theorem isRecordName_fileName (n : Nat) : isRecordName (Record.fileName n) = true := by
  have hrev : (Record.fileName n).toList.reverse
      = ['n', 'o', 's', 'j'] ++ '.' :: (padded n).toList.reverse := by
    rw [Record.fileName, String.toList_append, List.reverse_append]
    rfl
  cases hp : (padded n).toList.reverse with
  | nil => exact absurd (List.reverse_eq_nil_iff.1 hp) (padded_ne_nil n)
  | cons c stem =>
    rw [hp] at hrev
    simp only [isRecordName, Storage.Path.extension?, Storage.Path.cutExtension?, hrev]
    rfl

/-- A draft is not read as a record. -/
theorem isRecordName_draft (name : String) : isRecordName (name ++ ".tmp") = false := by
  have hrev : (name ++ ".tmp").toList.reverse = ['p', 'm', 't'] ++ '.' :: name.toList.reverse := by
    rw [String.toList_append, List.reverse_append]
    rfl
  simp only [isRecordName, Storage.Path.extension?, Storage.Path.cutExtension?, hrev]
  cases name.toList.reverse <;> simp

/-! ## Tables -/

/-- The records of a table, numbered in its order. -/
def recordsOf (t : Table) : List Record := t.mapIdx fun i e => ⟨e.1, e.2, i⟩

theorem recordsOf_append (t : Table) (key token : String) :
    recordsOf (t ++ [(key, token)]) = recordsOf t ++ [⟨key, token, t.length⟩] := by
  rw [recordsOf, List.mapIdx_concat]
  rfl

theorem map_recordsOf (t : Table) : (recordsOf t).map (fun r => (r.key, r.token)) = t := by
  apply List.ext_getElem (by simp [recordsOf])
  intro i _ _
  simp [recordsOf]

theorem map_seq_recordsOf (t : Table) : (recordsOf t).map Record.seq = List.range t.length := by
  apply List.ext_getElem (by simp [recordsOf])
  intro i _ _
  simp [recordsOf]

theorem seq_lt_of_mem_recordsOf {t : Table} {r : Record} (h : r ∈ recordsOf t) :
    r.seq < t.length := by
  have : r.seq ∈ (recordsOf t).map Record.seq := List.mem_map_of_mem h
  rwa [map_seq_recordsOf, List.mem_range] at this

theorem pairwise_seq_recordsOf (t : Table) :
    (recordsOf t).Pairwise fun a b => decide (a.seq ≤ b.seq) = true := by
  have h : ((recordsOf t).map Record.seq).Pairwise (· ≤ ·) := by
    rw [map_seq_recordsOf]
    exact List.pairwise_le_range
  exact (List.pairwise_map.1 h).imp fun h => decide_eq_true h

/-- The records of a table spell it, if no key is repeated. -/
theorem tableOfRecords_recordsOf {t : Table} (h : (OrderedMap.keys t).Nodup) :
    tableOfRecords (recordsOf t) = t := by
  rw [tableOfRecords, List.mergeSort_of_pairwise (pairwise_seq_recordsOf t), map_recordsOf,
    OrderedMap.ofEntries_of_nodup h]

/-! ## Records in any order -/

/-- The order in which records are taken up. -/
abbrev Record.before (a b : Record) : Bool := a.seq ≤ b.seq

theorem Record.before_trans (a b c : Record) (hab : a.before b = true) (hbc : b.before c = true) :
    a.before c = true := by
  simp only [Record.before, decide_eq_true_eq] at *
  omega

theorem Record.before_total (a b : Record) : (a.before b || b.before a) = true := by
  simp only [Record.before, Bool.or_eq_true, decide_eq_true_eq]
  omega

/-- Records that are left out before sorting are not missed after it. -/
theorem filter_mergeSort (p : Record → Bool) (rs : List Record) :
    (rs.mergeSort Record.before).filter p = (rs.filter p).mergeSort Record.before := by
  induction rs with
  | nil => simp
  | cons r rs ih =>
    obtain ⟨xs, ys, hall, hrest, hxs⟩ :=
      List.mergeSort_cons Record.before_trans Record.before_total r rs
    rw [hrest, List.filter_append] at ih
    by_cases hp : p r = true
    · obtain ⟨us, vs, hkept, hsplit, hus⟩ :=
        List.mergeSort_cons Record.before_trans Record.before_total r (rs.filter p)
      -- both lists are cut where the records stop being before `r`
      have hys : ∀ b ∈ ys, r.before b = true := by
        have hsorted := List.pairwise_mergeSort Record.before_trans Record.before_total (r :: rs)
        rw [hall, List.pairwise_append] at hsorted
        exact (List.pairwise_cons.1 hsorted.2.1).1
      have hvs : ∀ b ∈ vs, r.before b = true := by
        have hsorted :=
          List.pairwise_mergeSort Record.before_trans Record.before_total (r :: rs.filter p)
        rw [hkept, List.pairwise_append] at hsorted
        exact (List.pairwise_cons.1 hsorted.2.1).1
      have hcut : ∀ as bs : List Record, (∀ b ∈ as, (!r.before b) = true) →
          (∀ b ∈ bs, r.before b = true) →
          (as ++ bs).filter (fun b => !r.before b) = as ∧ (as ++ bs).filter r.before = bs := by
        intro as bs has hbs
        rw [List.filter_append, List.filter_append, List.filter_eq_self.2 has,
          List.filter_eq_self.2 hbs, List.filter_eq_nil_iff.2 (by simpa using hbs),
          List.filter_eq_nil_iff.2 (by simpa using has)]
        simp
      obtain ⟨hx, hy⟩ := hcut (xs.filter p) (ys.filter p)
        (fun b hb => hxs b (List.mem_of_mem_filter hb))
        (fun b hb => hys b (List.mem_of_mem_filter hb))
      obtain ⟨hu, hv⟩ := hcut us vs hus hvs
      rw [← hsplit, ← ih, hx] at hu
      rw [← hsplit, ← ih, hy] at hv
      rw [hall, List.filter_append, List.filter_cons_of_pos hp, List.filter_cons_of_pos hp, hkept,
        hu, hv]
    · rw [hall, List.filter_append, List.filter_cons_of_neg hp, List.filter_cons_of_neg hp, ih]

/-- The token of a key is that of the last of its records. -/
theorem get?_tableOfRecords (rs : List Record) (key : String) :
    OrderedMap.get? (tableOfRecords rs) key
      = (((rs.filter fun r => r.key = key).mergeSort Record.before).getLast?).map Record.token := by
  rw [tableOfRecords, OrderedMap.get?_ofEntries, List.filter_map, List.getLast?_map, Option.map_map,
    ← filter_mergeSort]
  rfl

theorem keys_tableOfRecords (rs : List Record) :
    OrderedMap.keys (tableOfRecords rs)
      = ((rs.mergeSort Record.before).map Record.key).eraseDups := by
  rw [tableOfRecords, OrderedMap.keys_ofEntries, List.map_map]
  rfl

theorem mem_keys_tableOfRecords {rs : List Record} {key : String} :
    key ∈ OrderedMap.keys (tableOfRecords rs) ↔ ∃ r ∈ rs, r.key = key := by
  simp [keys_tableOfRecords, List.mem_eraseDups]

/-- A table has as many keys as there are in its records. -/
theorem length_keys_tableOfRecords (rs : List Record) :
    (OrderedMap.keys (tableOfRecords rs)).length = (rs.map Record.key).toFinset.card := by
  have hnodup : (OrderedMap.keys (tableOfRecords rs)).Nodup := OrderedMap.nodup_keys_ofEntries _
  rw [← List.toFinset_card_of_nodup hnodup]
  congr 1
  ext key
  rw [List.mem_toFinset, List.mem_toFinset, mem_keys_tableOfRecords, List.mem_map]

variable {rs : List Record} {r : Record}

/-- A record of another key does not change a token, wherever it stands. -/
theorem get?_tableOfRecords_append {key : String} (h : r.key ≠ key) :
    OrderedMap.get? (tableOfRecords (rs ++ [r])) key = OrderedMap.get? (tableOfRecords rs) key := by
  simp [get?_tableOfRecords, List.filter_append, h]

/-- The only record of a key says its token. -/
theorem get?_tableOfRecords_append_self (h : r.key ∉ OrderedMap.keys (tableOfRecords rs)) :
    OrderedMap.get? (tableOfRecords (rs ++ [r])) r.key = some r.token := by
  have hnone : rs.filter (fun s => s.key = r.key) = [] := by
    rw [List.filter_eq_nil_iff]
    intro s hs heq
    exact h (mem_keys_tableOfRecords.2 ⟨s, hs, of_decide_eq_true heq⟩)
  simp [get?_tableOfRecords, List.filter_append, hnone]

end NestedStyles.Cache
