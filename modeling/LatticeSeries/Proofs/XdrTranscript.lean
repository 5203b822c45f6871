import LatticeSeries.Proofs.CheckedBlock
import LatticeSeries.Proofs.XdrText
import LatticeSeries.Xdr.Decoder

/-!
# The place of a decoder

A decoder keeps its place by two things that say the same: the number of bytes
that are consumed, and the bytes that are not. They agree at the start, and no call
sets them apart, whatever it finds and whether it succeeds or not. So the whole
transcript of a decoder is read off the buffer, and on a machine no call reaches
past the end of it.
-/
namespace LatticeSeries.Xdr

/-- The cursor stands at a multiple of four bytes, and the bytes that are left are
those of the buffer from there on. -/
structure Cursor.Tracks (buffer : Bytes) (c : Cursor) : Prop where
  position_add_remaining : c.position + c.remaining = buffer.length
  rest_eq : c.rest = buffer.drop c.position
  aligned : c.position % 4 = 0

/-- What a call returns at a cursor, in terms of the buffer, and where it leaves the
cursor. A number that fails leaves the cursor alone; a text that fails leaves it
alone or, if there is a length, behind the length. -/
inductive Moves (buffer : Bytes) (c : Cursor) : Call → Except Error Item → Cursor → Prop
  | u32 {item : String} {n : UInt32} :
      4 ≤ c.remaining → n.toNat = BigEndian.decode ((buffer.drop c.position).take 4) →
      Moves buffer c (.u32 item) (.ok (.u32 n)) (c.advance 4)
  | u32Cut {item : String} :
      c.remaining < 4 →
      Moves buffer c (.u32 item)
        (.error (.corruptHeader (.outOfBytes item c.position 4 c.remaining))) c
  | double {item : String} {x : Double} :
      8 ≤ c.remaining → x.bits.toNat = BigEndian.decode ((buffer.drop c.position).take 8) →
      Moves buffer c (.double item) (.ok (.double x)) (c.advance 8)
  | doubleCut {item : String} :
      c.remaining < 8 →
      Moves buffer c (.double item)
        (.error (.corruptHeader (.outOfBytes item c.position 8 c.remaining))) c
  | text {item text : String} :
      Storable text → encodeText text <+: buffer.drop c.position →
      Moves buffer c (.text item) (.ok (.text text)) (c.advance (encodeText text).length)
  | textCut {item : String} {fault : HeaderFault} :
      c.remaining < 4 → TextFault item c fault c →
      Moves buffer c (.text item) (.error (.corruptHeader fault)) c
  | textRefused {item : String} {fault : HeaderFault} :
      4 ≤ c.remaining → TextFault item c fault (c.advance 4) →
      Moves buffer c (.text item) (.error (.corruptHeader fault)) (c.advance 4)

/-- The cursor that a call leaves when it fails. -/
def Call.stop : Call → Cursor → Cursor
  | .text _, c => if c.remaining < 4 then c else c.advance 4
  | _, c => c

theorem toNat_u32OfBytes {bytes : Bytes} (h : bytes.length = 4) :
    (u32OfBytes bytes).toNat = BigEndian.decode bytes := by
  have hlt := BigEndian.decode_lt bytes
  rw [h] at hlt
  rw [u32OfBytes, UInt32.toNat_ofNat', Nat.mod_eq_of_lt hlt]

theorem toNat_bits_ofBytes {bytes : Bytes} (h : bytes.length = 8) :
    (Ieee.Number.ofBytes bytes : Double).bits.toNat = BigEndian.decode bytes := by
  have hlt := BigEndian.decode_lt bytes
  rw [h] at hlt
  rw [Ieee.Number.ofBytes, Ieee.Number.ofNatBits, BitVec.toNat_ofNat]
  exact Nat.mod_eq_of_lt hlt

theorem length_encodeText (text : String) :
    (encodeText text).length =
      4 + ((Utf8.encode text).length + padding (Utf8.encode text).length) := by
  simp [encodeText]

theorem length_encodeText_mod (text : String) : (encodeText text).length % 4 = 0 := by
  rw [length_encodeText, Nat.add_mod_left, add_padding_mod]

theorem Cursor.position_add_remaining_advance {c : Cursor} {n : Nat} (h : n ≤ c.remaining) :
    (c.advance n).position + (c.advance n).remaining = c.position + c.remaining := by
  have hremaining : (c.advance n).remaining = c.remaining - n := List.length_drop
  have hposition : (c.advance n).position = c.position + n := rfl
  omega

namespace Cursor.Tracks

variable {buffer : Bytes} {c : Cursor}

theorem start (buffer : Bytes) : (Cursor.start buffer).Tracks buffer :=
  ⟨Nat.zero_add _, rfl, rfl⟩

theorem advance (h : c.Tracks buffer) {n : Nat} (hn : n ≤ c.remaining) (hunits : n % 4 = 0) :
    (c.advance n).Tracks buffer where
  position_add_remaining :=
    (position_add_remaining_advance hn).trans h.position_add_remaining
  rest_eq := by
    rw [Cursor.advance, h.rest_eq, List.drop_drop]
  aligned := by
    have haligned := h.aligned
    have hposition : (c.advance n).position = c.position + n := rfl
    omega

end Cursor.Tracks

/-- After a length that was read the cursor stands behind it. -/
theorem TextFault.cursor_eq {item : String} {c c' : Cursor} {fault : HeaderFault}
    (h : TextFault item c fault c') :
    c.remaining < 4 ∧ c' = c ∨ 4 ≤ c.remaining ∧ c' = c.advance 4 := by
  have hbehind : ∀ {n : UInt32}, c.Took (bytesOfU32 n) c' →
      4 ≤ c.remaining ∧ c' = c.advance 4 := by
    intro n htook
    obtain ⟨hle, -, hc⟩ := Cursor.took_advance_iff.mp htook
    rw [length_bytesOfU32] at hle hc
    exact ⟨hle, hc⟩
  cases h with
  | noLength hshort => exact .inl ⟨hshort, rfl⟩
  | cut hlength => exact .inr (hbehind hlength)
  | padding hlength => exact .inr (hbehind hlength)
  | encoding hlength => exact .inr (hbehind hlength)

theorem settle_map {α β : Type} (f : α → β) (x : Reader α) (c : Cursor) :
    settle ((f <$> x) c) = ((settle (x c)).1.map f, (settle (x c)).2) := by
  change settle (EStateM.map f x c) = _
  rw [EStateM.map]
  cases x c <;> rfl

/-- A reader that accepts all windows moves past one exactly if there is one. -/
theorem settle_window {α : Type} (item : String) (n : Nat) (decode : Bytes → α) (c : Cursor) :
    settle (window item n (fun _ bytes => .ok (decode bytes)) c) =
      if c.remaining < n then
        (.error (.corruptHeader (.outOfBytes item c.position n c.remaining)), c)
      else (.ok (decode (c.rest.take n)), c.advance n) := by
  unfold window
  split <;> rfl

theorem bind_of_ok {α β : Type} {x : Reader α} {a : α} {c c' : Cursor} (h : x c = .ok a c')
    (f : α → Reader β) : (x >>= f) c = f a c' := by
  change EStateM.bind x f c = _
  rw [EStateM.bind, h]

variable {buffer : Bytes} {c : Cursor}

theorem moves_u32 (h : c.Tracks buffer) (item : String) :
    Moves buffer c (.u32 item) ((settle (readU32 item c)).1.map Item.u32)
      (settle (readU32 item c)).2 := by
  rw [readU32, settle_window]
  split
  · rename_i hlt
    exact .u32Cut hlt
  · rename_i hge
    have hle : 4 ≤ c.remaining := Nat.le_of_not_lt hge
    exact .u32 hle (h.rest_eq ▸ toNat_u32OfBytes (List.length_take_of_le hle))

theorem moves_double (h : c.Tracks buffer) (item : String) :
    Moves buffer c (.double item) ((settle (readDouble item c)).1.map Item.double)
      (settle (readDouble item c)).2 := by
  rw [readDouble, settle_window]
  split
  · rename_i hlt
    exact .doubleCut hlt
  · rename_i hge
    have hle : 8 ≤ c.remaining := Nat.le_of_not_lt hge
    exact .double hle (h.rest_eq ▸ toNat_bits_ofBytes (List.length_take_of_le hle))

theorem moves_text (h : c.Tracks buffer) (item : String) :
    Moves buffer c (.text item) ((settle (readText item c)).1.map Item.text)
      (settle (readText item c)).2 := by
  cases hread : readText item c with
  | ok text c' =>
    obtain ⟨htext, hprefix, rfl⟩ := readText_eq_ok_iff_isPrefix.mp hread
    exact .text htext (h.rest_eq ▸ hprefix)
  | error e c' =>
    obtain ⟨fault, hfault, rfl⟩ := readText_eq_error_iff.mp hread
    rcases hfault.cursor_eq with ⟨hlt, rfl⟩ | ⟨hle, rfl⟩
    · exact .textCut hlt hfault
    · exact .textRefused hle hfault

theorem moves_turn (h : c.Tracks buffer) (call : Call) :
    Moves buffer c call (call.turn c).outcome (call.turn c).after := by
  unfold Call.turn Call.read
  cases call with
  | u32 item =>
    rw [settle_map]
    exact moves_u32 h item
  | double item =>
    rw [settle_map]
    exact moves_double h item
  | text item =>
    rw [settle_map]
    exact moves_text h item

namespace Moves

variable {buffer : Bytes} {c c' : Cursor} {call : Call} {outcome : Except Error Item}

theorem position_le (h : Moves buffer c call outcome c') : c.position ≤ c'.position := by
  cases h <;> first | exact Nat.le_refl _ | exact Nat.le_add_right _ _

theorem eq_stop_of_error {e : Error} (h : Moves buffer c call (.error e) c') :
    c' = call.stop c := by
  cases h with
  | textCut hlt => exact (if_pos hlt).symm
  | textRefused hle => exact (if_neg (Nat.not_lt.mpr hle)).symm
  | _ => rfl

theorem tracks (h : Moves buffer c call outcome c') (hc : c.Tracks buffer) :
    c'.Tracks buffer := by
  cases h with
  | u32 hle => exact hc.advance hle rfl
  | double hle => exact hc.advance hle rfl
  | text htext hprefix =>
    refine hc.advance ?_ (length_encodeText_mod _)
    rw [Cursor.remaining, hc.rest_eq]
    exact hprefix.length_le
  | textRefused hle => exact hc.advance hle rfl
  | _ => exact hc

end Moves

/-- A turn that is right in every respect: both cursors agree with the buffer, and
the buffer says what was returned and how far the cursor went. -/
structure Turn.Follows (buffer : Bytes) (turn : Turn) : Prop where
  before_tracks : turn.before.Tracks buffer
  after_tracks : turn.after.Tracks buffer
  moves : Moves buffer turn.before turn.call turn.outcome turn.after

theorem follows_turn (h : c.Tracks buffer) (call : Call) : (call.turn c).Follows buffer where
  before_tracks := h
  after_tracks := (moves_turn h call).tracks h
  moves := moves_turn h call

theorem transcript_follows (h : c.Tracks buffer) (calls : List Call) :
    ∀ turn ∈ transcript c calls, turn.Follows buffer := by
  induction calls generalizing c with
  | nil =>
    intro turn hturn
    cases hturn
  | cons call calls ih =>
    have hturn : (call.turn c).Follows buffer := follows_turn h call
    exact List.forall_mem_cons.mpr ⟨hturn, ih hturn.after_tracks⟩

theorem map_call_transcript (c : Cursor) (calls : List Call) :
    (transcript c calls).map Turn.call = calls := by
  induction calls generalizing c with
  | nil => rfl
  | cons call calls ih => exact congrArg (call :: ·) (ih _)

/-- Each call starts where the one before it left the cursor. -/
theorem isChain_transcript (c : Cursor) (calls : List Call) :
    (transcript c calls).IsChain fun t u => t.after = u.before := by
  induction calls generalizing c with
  | nil => exact .nil
  | cons call calls ih =>
    cases calls with
    | nil => exact .singleton _
    | cons next calls => exact .cons_cons rfl (ih _)

theorem position_le_of_mem_transcript (h : c.Tracks buffer) {calls : List Call} {turn : Turn}
    (hturn : turn ∈ transcript c calls) : c.position ≤ turn.before.position := by
  induction calls generalizing c with
  | nil => cases hturn
  | cons call calls ih =>
    have hfollows : (call.turn c).Follows buffer := follows_turn h call
    rcases List.mem_cons.mp hturn with rfl | hrest
    · exact Nat.le_refl _
    · exact Nat.le_trans hfollows.moves.position_le (ih hfollows.after_tracks hrest)

theorem pairwise_position_transcript (h : c.Tracks buffer) (calls : List Call) :
    (transcript c calls).Pairwise fun t u => t.after.position ≤ u.before.position := by
  induction calls generalizing c with
  | nil => exact .nil
  | cons call calls ih =>
    have hfollows : (call.turn c).Follows buffer := follows_turn h call
    exact .cons (fun _ hrest => position_le_of_mem_transcript hfollows.after_tracks hrest)
      (ih hfollows.after_tracks)

namespace Decoder

variable {α β : Type} {item : String} {n : Nat}

theorem bind_of_ok {x : Decoder α} {c c' : Cursor} {a : α} (h : x c = .ok (.ok a, c'))
    (f : α → Decoder β) : (x >>= f) c = f a c' := by
  change Except.bind (x c) _ = _
  rw [h]
  rfl

theorem bind_of_error {x : Decoder α} {c c' : Cursor} {e : Error} (h : x c = .ok (.error e, c'))
    (f : α → Decoder β) : (x >>= f) c = .ok (.error e, c') := by
  change Except.bind (x c) _ = _
  rw [h]
  rfl

theorem liftM_bind {x : Checked α} {a : α} (h : x = .ok a) (f : α → Decoder β) :
    ((liftM x : Decoder α) >>= f) c = f a c := by
  subst h
  rfl

theorem get_bind (f : Cursor → Decoder β) : (get >>= f) c = f c c := rfl

theorem map_eq {x : Decoder α} {outcome : Except Error α} {c c' : Cursor}
    (h : x c = .ok (outcome, c')) (f : α → β) : (f <$> x) c = .ok (outcome.map f, c') := by
  change Except.bind (x c) _ = _
  rw [h]
  cases outcome <;> rfl

theorem need_of_le (h : n ≤ c.remaining) : need item n c = .ok (.ok (), c) := by
  rw [need, get_bind, if_neg (Nat.not_lt.mpr h)]
  rfl

theorem need_of_lt (h : c.remaining < n) :
    need item n c =
      .ok (.error (.corruptHeader (.outOfBytes item c.position n c.remaining)), c) := by
  rw [need, get_bind, if_pos h]
  rfl

theorem count_eq (h : c.position + n < UInt64.size) :
    count n c = .ok (.ok (), { c with position := c.position + n }) := by
  rw [count, get_bind, liftM_bind (Checked.add_eq_ok h)]
  rfl

theorem take_eq (h : n ≤ c.rest.length) :
    take n c = .ok (.ok (c.rest.take n), { c with rest := c.rest.drop n }) := by
  rw [take, get_bind, liftM_bind (Checked.split_eq_ok h)]
  rfl

/-- Counting and taking, one after the other, move the cursor as a whole. -/
theorem fixed_eq (hfit : c.position + c.remaining < UInt64.size) (decode : Bytes → α) :
    fixed item n decode c =
      .ok (settle (window item n (fun _ bytes => .ok (decode bytes)) c)) := by
  rw [settle_window]
  split
  · rename_i hlt
    rw [fixed, bind_of_error (need_of_lt hlt)]
  · rename_i hge
    have hle : n ≤ c.remaining := Nat.le_of_not_lt hge
    have hcount := count_eq (n := n) (c := c) (by omega)
    have htake := take_eq (n := n) (c := ⟨c.position + n, c.rest⟩) hle
    rw [fixed, bind_of_ok (need_of_le hle), bind_of_ok hcount, bind_of_ok htake]
    rfl

/-- Slicing, splitting and judging are what a window of a text does. -/
theorem padded_eq (hfit : c.position + c.remaining < UInt64.size) {length : Nat}
    (hlength : length + padding length < UInt64.size) :
    padded item length c =
      .ok (settle (window item (length + padding length)
        (fun c bytes => textOf item c.position length bytes) c)) := by
  rw [padded, liftM_bind (Checked.add_eq_ok hlength)]
  rcases Nat.lt_or_ge c.remaining (length + padding length) with hlt | hle
  · rw [bind_of_error (need_of_lt hlt), window, if_pos hlt]
    rfl
  · have hslice : Checked.slice c.rest 0 (length + padding length) =
        .ok (c.rest.take (length + padding length)) := Checked.slice_eq_ok (Nat.zero_le _) hle
    have hwindow : (c.rest.take (length + padding length)).length = length + padding length :=
      List.length_take_of_le hle
    have hsplit : Checked.split length (c.rest.take (length + padding length)) = _ :=
      Checked.split_eq_ok (by omega)
    rw [bind_of_ok (need_of_le hle), get_bind, liftM_bind hslice, liftM_bind hsplit, window,
      if_neg (Nat.not_lt.mpr hle)]
    dsimp only
    rw [textOf]
    split
    · rfl
    · cases Utf8.decode ((c.rest.take (length + padding length)).take length) with
      | error fault => rfl
      | ok text =>
        have htake := map_eq (take_eq hle) (Function.const Bytes ())
        have hcount := count_eq (n := length + padding length)
          (c := ⟨c.position, c.rest.drop (length + padding length)⟩) (by dsimp only; omega)
        exact (bind_of_ok htake _).trans (bind_of_ok hcount _)

theorem unpackText_eq (hfit : c.position + c.remaining < UInt64.size) :
    unpackText item c = .ok (settle (readText item c)) := by
  have hunpack : unpackU32 item c = .ok (settle (readU32 item c)) := fixed_eq hfit u32OfBytes
  rw [unpackText, readText]
  cases hread : readU32 item c with
  | error e c' =>
    rw [hread] at hunpack
    rw [bind_of_error hunpack, bind_eq_error_iff.mpr (.inl hread)]
    rfl
  | ok length c' =>
    rw [hread] at hunpack
    obtain ⟨hle, -, rfl⟩ := window_eq_ok_iff.mp hread
    have hwidth : length.toNat + padding length.toNat < UInt64.size := by
      have hlength := length.toNat_lt
      have hpadding := padding_lt length.toNat
      simp only [UInt64.size]
      omega
    have hfit' : (c.advance 4).position + (c.advance 4).remaining < UInt64.size := by
      rwa [Cursor.position_add_remaining_advance hle]
    have hrun := Xdr.bind_of_ok hread fun length =>
      window item (length.toNat + padding length.toNat) fun c bytes =>
        textOf item c.position length.toNat bytes
    rw [bind_of_ok hunpack, padded_eq hfit' hwidth, hrun]

end Decoder

/-- Every call does on a machine what its reader does. -/
theorem Call.unpack_eq (hfit : c.position + c.remaining < UInt64.size) (call : Call) :
    call.unpack c = .ok (settle (call.read c)) := by
  unfold Call.unpack Call.read
  cases call with
  | u32 item =>
    rw [settle_map]
    exact Decoder.map_eq (Decoder.fixed_eq hfit u32OfBytes) Item.u32
  | double item =>
    rw [settle_map]
    exact Decoder.map_eq (Decoder.fixed_eq hfit Ieee.Number.ofBytes) Item.double
  | text item =>
    rw [settle_map]
    exact Decoder.map_eq (Decoder.unpackText_eq hfit) Item.text

theorem Decoder.transcript_eq (h : c.Tracks buffer) (hbuffer : buffer.length < UInt64.size)
    (calls : List Call) : Decoder.transcript c calls = .ok (Xdr.transcript c calls) := by
  induction calls generalizing c with
  | nil => rfl
  | cons call calls ih =>
    have hunpack : call.unpack c = .ok (settle (call.read c)) :=
      call.unpack_eq (h.position_add_remaining ▸ hbuffer)
    have hrest := ih (follows_turn h call).after_tracks
    rw [Decoder.transcript, hunpack, ok_bind]
    change (Decoder.transcript (call.turn c).after calls >>= _) = _
    rw [hrest]
    rfl

/-- The turns that calls take on a buffer, whichever of them fail. All calls are made, the
first at the start of the buffer and each other one where the one before it stopped. A
number that fails takes nothing, and a text that fails takes its length at most. -/
structure KeepsPlace (buffer : Bytes) (calls : List Call) (turns : List Turn) : Prop where
  map_call : turns.map Turn.call = calls
  first : ∀ turn ∈ turns.head?, turn.before = .start buffer
  chain : turns.IsChain fun t u => t.after = u.before
  follows : ∀ turn ∈ turns, turn.Follows buffer
  position_le : ∀ turn ∈ turns, turn.before.position ≤ turn.after.position
  stop_of_error : ∀ turn ∈ turns, ∀ e, turn.outcome = .error e →
    turn.after = turn.call.stop turn.before
  ordered : turns.Pairwise fun t u => t.after.position ≤ u.before.position

theorem keepsPlace_transcript (buffer : Bytes) (calls : List Call) :
    KeepsPlace buffer calls (transcript (.start buffer) calls) where
  map_call := map_call_transcript _ _
  first := by
    intro turn hturn
    cases calls with
    | nil => cases hturn
    | cons call calls =>
      cases hturn
      rfl
  chain := isChain_transcript _ _
  follows := transcript_follows (.start buffer) calls
  position_le := fun turn hturn =>
    (transcript_follows (.start buffer) calls turn hturn).moves.position_le
  stop_of_error := by
    intro turn hturn e he
    have hfollows := transcript_follows (.start buffer) calls turn hturn
    exact (he ▸ hfollows.moves).eq_stop_of_error
  ordered := pairwise_position_transcript (.start buffer) calls

/-- However the calls follow each other, and whichever of them fail, a decoder keeps
its place: before and after every call the number of consumed bytes and the bytes that
are left agree with the buffer, and the call does what the buffer says. On a machine the
same happens, as no call reaches past the end of the buffer or counts past the last word. -/
theorem transcript_never_drifts (buffer : Bytes) (calls : List Call) :
    KeepsPlace buffer calls (transcript (.start buffer) calls) ∧
    (buffer.length < UInt64.size →
      Decoder.transcript (.start buffer) calls = .ok (transcript (.start buffer) calls)) :=
  ⟨keepsPlace_transcript buffer calls,
    fun hbuffer => Decoder.transcript_eq (.start buffer) hbuffer calls⟩

/-- A text that is too short loses its length, and its bytes are read as a number. -/
theorem transcript_never_drifts_sample :
    (transcript (.start [0, 0, 0, 7, 0, 0, 0, 9, 1, 2, 3, 4])
      [.u32 "count", .text "name", .double "width", .u32 "count", .text "name"]).map
        (fun turn => (turn.after.position, turn.outcome.toOption)) =
      [(4, some (.u32 7)), (8, none), (8, none), (12, some (.u32 16909060)), (12, none)] ∧
    Decoder.transcript (.start [0, 0, 0, 7, 0, 0, 0, 9, 1, 2, 3, 4])
        [.u32 "count", .text "name", .double "width", .u32 "count", .text "name"] =
      .ok (transcript (.start [0, 0, 0, 7, 0, 0, 0, 9, 1, 2, 3, 4])
        [.u32 "count", .text "name", .double "width", .u32 "count", .text "name"]) := by
  obtain ⟨-, hmachine⟩ :=
    transcript_never_drifts [0, 0, 0, 7, 0, 0, 0, 9, 1, 2, 3, 4]
      [.u32 "count", .text "name", .double "width", .u32 "count", .text "name"]
  exact ⟨by decide +kernel, hmachine (by decide)⟩

end LatticeSeries.Xdr
