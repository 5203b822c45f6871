import LatticeSeries.Proofs.XdrCodec

/-!
# What readers refuse

A reader fails for one reason, which the bytes in front of it decide: they are
too few, or those that are there do not spell an item. An item of fixed width
that is refused leaves the cursor where it was. A text is refused either before
its length, which is then not taken, or after it, and the errors after it name
the byte that follows the length.
-/
namespace LatticeSeries.Xdr

variable {α β : Type}

theorem bind_eq_error_iff {x : Reader α} {f : α → Reader β} {c c' : Cursor} {e : Error} :
    (x >>= f) c = .error e c' ↔
      x c = .error e c' ∨ ∃ a c₁, x c = .ok a c₁ ∧ f a c₁ = .error e c' := by
  change EStateM.bind x f c = _ ↔ _
  unfold EStateM.bind
  cases x c with
  | ok a c₁ => simp
  | error e₁ c₁ => simp

theorem pure_ne_error {a : α} {c c' : Cursor} {e : Error} :
    (pure a : Reader α) c ≠ .error e c' := by
  intro h
  cases h

theorem liftExcept_eq_error_iff {x : Except Error α} {c c' : Cursor} {e : Error} :
    (liftExcept x : Reader α) c = .error e c' ↔ x = .error e ∧ c' = c := by
  cases x with
  | ok value =>
    change EStateM.Result.ok value c = .error e c' ↔ _
    simp
  | error e₁ =>
    change EStateM.Result.error e₁ c = .error e c' ↔ _
    simp [eq_comm]

theorem window_eq_error_iff {item : String} {n : Nat}
    {read : Cursor → Bytes → Except HeaderFault α} {c c' : Cursor} {e : Error} :
    window item n read c = .error e c' ↔ c' = c ∧
      ((c.remaining < n ∧ e = .corruptHeader (.outOfBytes item c.position n c.remaining)) ∨
        (n ≤ c.remaining ∧ ∃ fault, read c (c.rest.take n) = .error fault ∧
          e = .corruptHeader fault)) := by
  unfold window
  split
  · rename_i hlt
    have hnot : ¬n ≤ c.remaining := Nat.not_le.mpr hlt
    simp [hlt, hnot, eq_comm, and_comm]
  · rename_i hge
    have hle : n ≤ c.remaining := Nat.le_of_not_lt hge
    cases read c (c.rest.take n) with
    | ok value => simp [hge]
    | error fault => simp [hge, hle, eq_comm, and_comm]

/-- A reader that accepts all windows fails for want of bytes only. -/
theorem window_total_eq_error_iff {item : String} {n : Nat} {decode : Bytes → α} {c c' : Cursor}
    {e : Error} :
    window item n (fun _ bytes => .ok (decode bytes)) c = .error e c' ↔
      c' = c ∧ c.remaining < n ∧
        e = .corruptHeader (.outOfBytes item c.position n c.remaining) := by
  rw [window_eq_error_iff]
  simp

theorem readU32_eq_error_iff {item : String} {c c' : Cursor} {e : Error} :
    readU32 item c = .error e c' ↔ c' = c ∧ c.remaining < 4 ∧
      e = .corruptHeader (.outOfBytes item c.position 4 c.remaining) :=
  window_total_eq_error_iff

theorem readDouble_eq_error_iff {item : String} {c c' : Cursor} {e : Error} :
    readDouble item c = .error e c' ↔ c' = c ∧ c.remaining < 8 ∧
      e = .corruptHeader (.outOfBytes item c.position 8 c.remaining) :=
  window_total_eq_error_iff

/-- The padding is judged before the text. -/
theorem textOf_eq_error_iff {item : String} {position length : Nat} {bytes : Bytes}
    {fault : HeaderFault} :
    textOf item position length bytes = .error fault ↔
      ((∃ b ∈ bytes.drop length, b ≠ 0) ∧ fault = .nonZeroPadding item position) ∨
        ((∀ b ∈ bytes.drop length, b = 0) ∧ ∃ reason,
          Utf8.decode (bytes.take length) = .error reason ∧
            fault = .notUtf8 item position reason) := by
  unfold textOf
  split
  · rename_i hany
    have hexists : ∃ b ∈ bytes.drop length, b ≠ 0 := by simpa using hany
    have hnot : ¬∀ b ∈ bytes.drop length, b = 0 := by
      intro hall
      obtain ⟨b, hb, hne⟩ := hexists
      exact hne (hall b hb)
    simp only [hexists, hnot, true_and, false_and, or_false, Except.error.injEq]
    exact eq_comm
  · rename_i hany
    have hall : ∀ b ∈ bytes.drop length, b = 0 := by simpa using hany
    have hnot : ¬∃ b ∈ bytes.drop length, b ≠ 0 := by
      rintro ⟨b, hb, hne⟩
      exact hne (hall b hb)
    cases Utf8.decode (bytes.take length) with
    | ok text => simp [hnot]
    | error reason =>
      simp only [hnot, false_and, false_or, Except.error.injEq]
      constructor
      · rintro rfl
        exact ⟨hall, reason, rfl, rfl⟩
      · rintro ⟨-, _, rfl, rfl⟩
        rfl

/-- Why no text is read at a cursor, and the cursor that is left. The reasons
exclude each other: each one but the first speaks of bytes that the earlier ones
did not miss. -/
inductive TextFault (item : String) (c : Cursor) : HeaderFault → Cursor → Prop
  /-- There are too few bytes for a length. -/
  | noLength :
      c.remaining < 4 → TextFault item c (.outOfBytes item c.position 4 c.remaining) c
  /-- The text and its padding run past the end. -/
  | cut {n : UInt32} {c' : Cursor} :
      c.Took (bytesOfU32 n) c' → c'.remaining < n.toNat + padding n.toNat →
      TextFault item c
        (.outOfBytes item c'.position (n.toNat + padding n.toNat) c'.remaining) c'
  | padding {n : UInt32} {c' : Cursor} {text pad rest : Bytes} :
      c.Took (bytesOfU32 n) c' → c'.rest = text ++ pad ++ rest → text.length = n.toNat →
      pad.length = padding n.toNat → (∃ b ∈ pad, b ≠ 0) →
      TextFault item c (.nonZeroPadding item c'.position) c'
  | encoding {n : UInt32} {c' : Cursor} {text rest : Bytes} {reason : Utf8.Fault} :
      c.Took (bytesOfU32 n) c' →
      c'.rest = text ++ List.replicate (padding n.toNat) 0 ++ rest → text.length = n.toNat →
      Utf8.decode text = .error reason →
      TextFault item c (.notUtf8 item c'.position reason) c'

/-- The windows of a cursor are what it begins with, cut at the length of the text. -/
theorem split_window {c : Cursor} {length : Nat} (h : length + padding length ≤ c.remaining) :
    c.rest = (c.rest.take (length + padding length)).take length ++
        (c.rest.take (length + padding length)).drop length ++
          c.rest.drop (length + padding length) ∧
      ((c.rest.take (length + padding length)).take length).length = length ∧
      ((c.rest.take (length + padding length)).drop length).length = padding length := by
  have hle : length + padding length ≤ c.rest.length := h
  refine ⟨?_, ?_, ?_⟩
  · rw [List.take_append_drop, List.take_append_drop]
  · rw [List.length_take, List.length_take]
    omega
  · rw [List.length_drop, List.length_take]
    omega

/-- Bytes that begin with a text and its padding are cut into these two. -/
theorem take_window {c : Cursor} {length : Nat} {text pad rest : Bytes}
    (hrest : c.rest = text ++ pad ++ rest) (htext : text.length = length)
    (hpad : pad.length = padding length) :
    length + padding length ≤ c.remaining ∧
      (c.rest.take (length + padding length)).take length = text ∧
      (c.rest.take (length + padding length)).drop length = pad := by
  have hwidth : (text ++ pad).length = length + padding length := by
    rw [List.length_append, htext, hpad]
  have htake : c.rest.take (length + padding length) = text ++ pad := by
    rw [hrest, ← hwidth, List.take_left]
  refine ⟨?_, ?_, ?_⟩
  · rw [Cursor.remaining, hrest, List.length_append, hwidth]
    exact Nat.le_add_right _ _
  · rw [htake, ← htext, List.take_left]
  · rw [htake, ← htext, List.drop_left]

theorem readText_eq_error_iff {item : String} {c c' : Cursor} {e : Error} :
    readText item c = .error e c' ↔
      ∃ fault, TextFault item c fault c' ∧ e = .corruptHeader fault := by
  unfold readText
  rw [bind_eq_error_iff]
  simp only [readU32_eq_error_iff, readU32_eq_ok_iff, window_eq_error_iff, textOf_eq_error_iff]
  constructor
  · intro h
    rcases h with ⟨rfl, hshort, rfl⟩ | ⟨n, c₁, hlength, rfl, hcut | ⟨hfit, fault, hfault, rfl⟩⟩
    · exact ⟨_, .noLength hshort, rfl⟩
    · obtain ⟨hcut, rfl⟩ := hcut
      exact ⟨_, .cut hlength hcut, rfl⟩
    · obtain ⟨hrest, htext, hpad⟩ := split_window hfit
      rcases hfault with ⟨hnonzero, rfl⟩ | ⟨hzero, reason, hdecode, rfl⟩
      · exact ⟨_, .padding hlength hrest htext hpad hnonzero, rfl⟩
      · rw [List.eq_replicate_iff.mpr ⟨hpad, hzero⟩] at hrest
        exact ⟨_, .encoding hlength hrest htext hdecode, rfl⟩
  · intro h
    rcases h with ⟨fault, hfault, rfl⟩
    cases hfault with
    | noLength hshort => exact .inl ⟨rfl, hshort, rfl⟩
    | cut hlength hcut => exact .inr ⟨_, _, hlength, rfl, .inl ⟨hcut, rfl⟩⟩
    | padding hlength hrest htext hpad hnonzero =>
      obtain ⟨hfit, -, hdrop⟩ := take_window hrest htext hpad
      refine .inr ⟨_, _, hlength, rfl, .inr ⟨hfit, _, .inl ⟨?_, rfl⟩, rfl⟩⟩
      rwa [hdrop]
    | encoding hlength hrest htext hdecode =>
      obtain ⟨hfit, htake, hdrop⟩ := take_window hrest htext List.length_replicate
      refine .inr ⟨_, _, hlength, rfl, .inr ⟨hfit, _, .inr ⟨?_, _, ?_, rfl⟩, rfl⟩⟩
      · rw [hdrop]
        exact fun b hb => List.eq_of_mem_replicate hb
      · rwa [htake]

end LatticeSeries.Xdr
