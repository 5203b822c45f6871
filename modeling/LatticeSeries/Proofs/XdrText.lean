import LatticeSeries.Proofs.Utf8Faults
import LatticeSeries.Proofs.XdrFaults

/-!
# The texts that are read

A text is read exactly where its encoding comes next, and its encoding is what is
taken: the length, the bytes, the padding. No two encodings begin the same bytes,
so what comes next decides about the text, and texts that are stored one after the
other are read one after the other. Where no encoding comes next there is one
reason for it, the first of four.
-/
namespace LatticeSeries.Xdr

theorem Cursor.took_iff_isPrefix {c c' : Cursor} {bytes : Bytes} :
    c.Took bytes c' ↔ bytes <+: c.rest ∧ c' = c.advance bytes.length := by
  rw [took_advance_iff, List.prefix_iff_eq_take]
  constructor
  · rintro ⟨-, htake, hc⟩
    exact ⟨htake.symm, hc⟩
  · rintro ⟨htake, hc⟩
    have hle : (c.rest.take bytes.length).length ≤ c.rest.length :=
      List.length_take_le' bytes.length c.rest
    rw [← htake] at hle
    exact ⟨hle, htake.symm, hc⟩

/-- A length field can count the bytes of the text. -/
def Storable (text : String) : Prop := (Utf8.encode text).length < UInt32.size

instance (text : String) : Decidable (Storable text) := inferInstanceAs (Decidable (_ < _))

variable {item text : String} {c c' : Cursor}

theorem readText_eq_ok_iff_isPrefix :
    readText item c = .ok text c' ↔
      Storable text ∧ encodeText text <+: c.rest ∧ c' = c.advance (encodeText text).length := by
  rw [readText_eq_ok_iff, Cursor.took_iff_isPrefix, Storable]

theorem readText_of_isPrefix (item : String) (htext : Storable text)
    (h : encodeText text <+: c.rest) :
    readText item c = .ok text (c.advance (encodeText text).length) :=
  readText_eq_ok_iff_isPrefix.mpr ⟨htext, h, rfl⟩

/-- The same bytes do not begin with the encodings of two texts, as a reader
returns one text only. -/
theorem encodeText_unique {text' : String} {bytes : Bytes} (htext : Storable text)
    (htext' : Storable text') (h : encodeText text <+: bytes) (h' : encodeText text' <+: bytes) :
    text' = text := by
  have hread : readText "" (.start bytes) = .ok text _ := readText_of_isPrefix "" htext h
  have hread' : readText "" (.start bytes) = .ok text' _ := readText_of_isPrefix "" htext' h'
  rw [hread] at hread'
  cases hread'
  rfl

theorem readText_cases (item : String) (c : Cursor) :
    (∃ text, Storable text ∧ encodeText text <+: c.rest) ∨
      ∃ fault c', readText item c = .error (.corruptHeader fault) c' ∧
        TextFault item c fault c' := by
  cases h : readText item c with
  | ok text c' =>
    obtain ⟨htext, hprefix, -⟩ := readText_eq_ok_iff_isPrefix.mp h
    exact .inl ⟨text, htext, hprefix⟩
  | error e c' =>
    obtain ⟨fault, hfault, rfl⟩ := readText_eq_error_iff.mp h
    exact .inr ⟨fault, c', rfl, hfault⟩

/-- The reasons against a text exclude each other. -/
theorem TextFault.unique {fault fault' : HeaderFault} {c₁ c₂ : Cursor}
    (h : TextFault item c fault c₁) (h' : TextFault item c fault' c₂) :
    fault' = fault ∧ c₂ = c₁ := by
  have hread : readText item c = .error (.corruptHeader fault) c₁ :=
    readText_eq_error_iff.mpr ⟨fault, h, rfl⟩
  have hread' : readText item c = .error (.corruptHeader fault') c₂ :=
    readText_eq_error_iff.mpr ⟨fault', h', rfl⟩
  rw [hread] at hread'
  cases hread'
  exact ⟨rfl, rfl⟩

/-- Texts are read one after the other exactly where their encodings lie so. -/
theorem mapM_readText_eq_ok_iff {items texts : List String} :
    items.mapM readText c = .ok texts c' ↔
      texts.length = items.length ∧ (∀ text ∈ texts, Storable text) ∧
        c.Took (texts.flatMap encodeText) c' := by
  induction items generalizing c c' texts with
  | nil =>
    rw [List.mapM_nil, pure_eq_ok_iff]
    constructor
    · rintro ⟨rfl, rfl⟩
      exact ⟨rfl, by simp, Cursor.took_nil.mpr rfl⟩
    · rintro ⟨hlength, -, htook⟩
      obtain rfl := List.eq_nil_of_length_eq_zero hlength
      exact ⟨rfl, Cursor.took_nil.mp htook⟩
  | cons item items ih =>
    simp only [List.mapM_cons, bind_eq_ok_iff, pure_eq_ok_iff, readText_eq_ok_iff, ih]
    constructor
    · rintro ⟨text, c₁, ⟨htext, htook⟩, rest, c₂, ⟨hlength, hrest, htooks⟩, rfl, rfl⟩
      exact ⟨congrArg Nat.succ hlength, List.forall_mem_cons.mpr ⟨htext, hrest⟩,
        htook.append htooks⟩
    · rintro ⟨hlength, htexts, htook⟩
      cases texts with
      | nil => cases hlength
      | cons text rest =>
        obtain ⟨htext, hrest⟩ := List.forall_mem_cons.mp htexts
        obtain ⟨c₁, htook, htooks⟩ := Cursor.took_append_iff.mp htook
        exact ⟨text, c₁, ⟨htext, htook⟩, rest, c', ⟨Nat.succ.inj hlength, hrest, htooks⟩,
          rfl, rfl⟩

/-- What a reader makes of the bytes in front of it. A text is returned exactly if they
begin with its encoding, which is then taken. If they begin with none, one reason applies:
no bytes for a length, too few bytes behind the length, padding that is not zero, or bytes
that are the UTF-8 of no text, each only where none before it does. -/
structure TextVerdict (item : String) (c : Cursor) : Prop where
  ok_iff : ∀ text c', readText item c = .ok text c' ↔
    Storable text ∧ encodeText text <+: c.rest ∧ c' = c.advance (encodeText text).length
  unique : ∀ text text', Storable text → Storable text' →
    encodeText text <+: c.rest → encodeText text' <+: c.rest → text' = text
  error_iff : ∀ e c', readText item c = .error e c' ↔
    ∃ fault, TextFault item c fault c' ∧ e = .corruptHeader fault
  refused : (∀ text, Storable text → ¬encodeText text <+: c.rest) →
    ∃! refusal : HeaderFault × Cursor, TextFault item c refusal.1 refusal.2

theorem textVerdict (item : String) (c : Cursor) : TextVerdict item c where
  ok_iff := fun _ _ => readText_eq_ok_iff_isPrefix
  unique := fun _ _ htext htext' => encodeText_unique htext htext'
  error_iff := fun _ _ => readText_eq_error_iff
  refused := by
    intro hnone
    rcases readText_cases item c with ⟨text, htext, hprefix⟩ | ⟨fault, c', -, hfault⟩
    · exact absurd hprefix (hnone text htext)
    · refine ⟨(fault, c'), hfault, ?_⟩
      rintro ⟨fault', c₂⟩ hfault'
      obtain ⟨rfl, rfl⟩ := hfault.unique hfault'
      rfl

/-- Bytes are the UTF-8 of no text exactly if the scan for faults finds one, and it is the
first: what is before it is a text, and no character comes next. -/
structure Utf8Verdict (bytes : Bytes) : Prop where
  sound_iff : Utf8.fault? 0 bytes = none ↔ ∃ text, bytes = Utf8.encode text
  error_iff : ∀ reason, Utf8.decode bytes = .error reason ↔ Utf8.fault? 0 bytes = some reason
  first : ∀ reason, Utf8.fault? 0 bytes = some reason →
    ∃ text rest, bytes = Utf8.encode text ++ rest ∧ reason.index = (Utf8.encode text).length ∧
      ∀ c, ¬String.utf8EncodeChar c <+: rest

theorem utf8Verdict (bytes : Bytes) : Utf8Verdict bytes where
  sound_iff := Utf8.fault?_eq_none_iff_encode
  error_iff := fun _ => Utf8.decode_eq_error_iff
  first := fun _ => Utf8.exists_text_of_fault?

/-- The encodings of a list of texts are read back as the list, and nothing of them is
left if they are all there is. -/
structure ListVerdict (c : Cursor) : Prop where
  ok_iff : ∀ (items texts : List String) c', items.mapM readText c = .ok texts c' ↔
    texts.length = items.length ∧ (∀ text ∈ texts, Storable text) ∧
      texts.flatMap encodeText <+: c.rest ∧ c' = c.advance (texts.flatMap encodeText).length
  whole : ∀ items texts : List String, texts.length = items.length →
    (∀ text ∈ texts, Storable text) → c.rest = texts.flatMap encodeText →
      items.mapM readText c = .ok texts ⟨c.position + c.remaining, []⟩

theorem listVerdict (c : Cursor) : ListVerdict c where
  ok_iff := fun _ _ _ => by rw [mapM_readText_eq_ok_iff, Cursor.took_iff_isPrefix]
  whole := by
    intro items texts hlength htexts hrest
    refine mapM_readText_eq_ok_iff.mpr ⟨hlength, htexts, ?_, ?_⟩
    · rw [hrest, List.append_nil]
    · rw [← hrest]
      rfl

/-- Reading a text is exact on all bytes, for one text and for lists of them, and so is
the judgement that bytes are no text. -/
theorem readText_exact (item : String) (c : Cursor) :
    TextVerdict item c ∧ (∀ bytes, Utf8Verdict bytes) ∧ ListVerdict c :=
  ⟨textVerdict item c, utf8Verdict, listVerdict c⟩

/-- Two texts with and without padding, and a text with a byte that is not zero behind it. -/
theorem readText_exact_sample :
    ["first", "second"].mapM readText (.start (["shear", "wall"].flatMap encodeText)) =
      .ok ["shear", "wall"] ⟨20, []⟩ ∧
    (∃! refusal : HeaderFault × Cursor,
      TextFault "name" (.start [0, 0, 0, 3, 97, 98, 99, 88]) refusal.1 refusal.2) ∧
    ∀ text, text ≠ "wall" →
      ¬(Storable text ∧ encodeText text <+: encodeText "wall" ++ encodeText "shear") := by
  have hwalls := readText_exact "name" (.start (encodeText "wall" ++ encodeText "shear"))
  have htexts := readText_exact "name" (.start (["shear", "wall"].flatMap encodeText))
  have hbytes := readText_exact "name" (.start [0, 0, 0, 3, 97, 98, 99, 88])
  refine ⟨?_, ?_, ?_⟩
  · obtain ⟨-, -, hlist⟩ := htexts
    exact hlist.whole ["first", "second"] ["shear", "wall"] rfl (by decide +kernel) rfl
  · obtain ⟨htext, -⟩ := hbytes
    refine htext.refused fun text hstorable hprefix => ?_
    have hread := (htext.ok_iff text _).mpr ⟨hstorable, hprefix, rfl⟩
    cases hread
  · rintro text hne ⟨hstorable, hprefix⟩
    obtain ⟨htext, -⟩ := hwalls
    exact hne (htext.unique "wall" text (by decide +kernel) hstorable
      (List.prefix_append _ _) hprefix)

end LatticeSeries.Xdr
