import LatticeSeries.Proofs.Preamble

/-!
# Limits only filter

The limits are checked between the steps of decoding, some of them once for every
field. Nevertheless a run under limits is the run without them, stopped at the
first bound that the headers exceed: a limit never changes what is decoded, and
no fault of the file hides behind another one. The relation between the two runs
is stated for one step and carried from step to step, so that each step of
decoding is compared on its own.
-/
namespace LatticeSeries

/-- A quantity of the headers that is held against a limit. -/
structure Bound where
  quantity : String
  value : Nat
  limit : Nat
deriving DecidableEq, Repr

def Error.ConcernsLimit : Error → Prop
  | .limitExceeded .. => True
  | _ => False

namespace Bound

def Holds (b : Bound) : Prop := b.value ≤ b.limit

def fault (b : Bound) : Error := .limitExceeded b.quantity b.value b.limit

/-- Checks the bounds one after the other. -/
def checkAll : List Bound → Except Error Unit
  | [] => .ok ()
  | b :: bs => do
    Limits.check b.quantity b.value b.limit
    checkAll bs

theorem checkAll_cons_of_holds {b : Bound} (h : b.Holds) (bs : List Bound) :
    checkAll (b :: bs) = checkAll bs := by
  rw [checkAll, Limits.check, if_neg (Nat.not_lt.mpr h), ok_bind]

theorem checkAll_cons_of_not_holds {b : Bound} (h : ¬b.Holds) (bs : List Bound) :
    checkAll (b :: bs) = .error b.fault := by
  rw [checkAll, Limits.check, if_pos (Nat.lt_of_not_le h), error_bind, fault]

theorem checkAll_append (bs cs : List Bound) :
    checkAll (bs ++ cs) = checkAll bs >>= fun _ => checkAll cs := by
  induction bs with
  | nil => rfl
  | cons b bs ih =>
    rw [List.cons_append]
    by_cases hb : b.Holds
    · rw [checkAll_cons_of_holds hb, checkAll_cons_of_holds hb, ih]
    · rw [checkAll_cons_of_not_holds hb, checkAll_cons_of_not_holds hb, error_bind]

theorem checkAll_eq_ok {bs : List Bound} (h : ∀ b ∈ bs, b.Holds) : checkAll bs = .ok () := by
  induction bs with
  | nil => rfl
  | cons b bs ih =>
    obtain ⟨hb, hbs⟩ := List.forall_mem_cons.mp h
    rw [checkAll_cons_of_holds hb, ih hbs]

/-- The first bound that does not hold is the one that is reported. -/
theorem checkAll_eq_error {before after : List Bound} {b : Bound}
    (hbefore : ∀ a ∈ before, a.Holds) (hb : ¬b.Holds) :
    checkAll (before ++ b :: after) = .error b.fault := by
  rw [checkAll_append, checkAll_eq_ok hbefore, ok_bind, checkAll_cons_of_not_holds hb]

/-- Either all bounds hold, or there is a first one that does not. -/
theorem all_hold_or_first (bs : List Bound) :
    (∀ b ∈ bs, b.Holds) ∨ ∃ before b after, bs = before ++ b :: after ∧
      (∀ a ∈ before, a.Holds) ∧ ¬b.Holds := by
  induction bs with
  | nil => exact .inl (by simp)
  | cons b bs ih =>
    by_cases hb : b.Holds
    · rcases ih with hall | ⟨before, c, after, rfl, hbefore, hc⟩
      · exact .inl (List.forall_mem_cons.mpr ⟨hb, hall⟩)
      · exact .inr ⟨b :: before, c, after, rfl, List.forall_mem_cons.mpr ⟨hb, hbefore⟩, hc⟩
    · exact .inr ⟨[], b, bs, rfl, by simp, hb⟩

theorem concernsLimit_of_checkAll {bs : List Bound} {e : Error} (h : checkAll bs = .error e) :
    e.ConcernsLimit := by
  rcases all_hold_or_first bs with hall | ⟨before, b, after, rfl, hbefore, hb⟩
  · rw [checkAll_eq_ok hall] at h
    cases h
  · rw [checkAll_eq_error hbefore hb] at h
    cases h
    trivial

end Bound

/-- The limited run holds the result of the free run against its bounds. It may
stop at a bound where the free run fails, and the free run stops at none. -/
structure Filters {α : Type} (bounds : α → List Bound) (limited free : Except Error α) : Prop where
  ok : ∀ a, free = .ok a → limited = (Bound.checkAll (bounds a)).map fun _ => a
  error : ∀ e, free = .error e → ¬e.ConcernsLimit ∧
    (limited = .error e ∨ ∃ e', limited = .error e' ∧ e'.ConcernsLimit)

namespace Filters

variable {α β : Type}

/-- A step that knows no limits. -/
theorem of_unlimited {x : Except Error α} (h : ∀ e, x = .error e → ¬e.ConcernsLimit) :
    Filters (fun _ => []) x x where
  ok _ ha := ha
  error e he := ⟨h e he, .inl he⟩

theorem of_ok {bounds : α → List Bound} {a : α} (h : bounds a = []) :
    Filters bounds (.ok a) (.ok a) where
  ok b hb := by
    obtain rfl : a = b := Except.ok.inj hb
    rw [h]
    rfl
  error _ hb := nomatch hb

theorem of_error {bounds : α → List Bound} {e : Error} (h : ¬e.ConcernsLimit) :
    Filters bounds (.error e) (.error e) where
  ok _ ha := nomatch ha
  error e' he' := by
    obtain rfl : e = e' := Except.error.inj he'
    exact ⟨h, .inl rfl⟩

theorem of_corruptHeader (x : Except HeaderFault α) :
    Filters (fun _ => []) (x.mapError Error.corruptHeader) (x.mapError Error.corruptHeader) := by
  apply of_unlimited
  intro e he
  cases x with
  | ok a => cases he
  | error fault =>
    cases he
    exact id

/-- A step that does nothing but check, where the free run cannot fail. -/
theorem check (quantity : String) {value greatest : Nat} (h : value ≤ greatest) (limit : Nat) :
    Filters (fun _ => [⟨quantity, value, limit⟩]) (Limits.check quantity value limit)
      (Limits.check quantity value greatest) := by
  have hfree : Limits.check quantity value greatest = .ok () := Limits.check_eq_ok_iff.mpr h
  rw [hfree]
  refine ⟨fun u _ => ?_, fun _ he => nomatch he⟩
  rw [Bound.checkAll]
  cases Limits.check quantity value limit <;> rfl

/-- Steps are compared one by one, and the bounds of a run are those of its steps
in their order. -/
protected theorem bind {x y : Except Error α} {f g : α → Except Error β} {bounds : α → List Bound}
    (rest : α → β → List Bound) {total : β → List Bound} (hx : Filters bounds x y)
    (hf : ∀ a, y = .ok a → Filters (rest a) (f a) (g a))
    (htotal : ∀ a b, y = .ok a → g a = .ok b → total b = bounds a ++ rest a b) :
    Filters total (x >>= f) (y >>= g) := by
  cases hy : y with
  | error e =>
    obtain ⟨hfree, hlimited⟩ := hx.error e hy
    refine ⟨fun b hb => (nomatch hb), ?_⟩
    intro e' he'
    obtain rfl : e = e' := Except.error.inj he'
    refine ⟨hfree, ?_⟩
    rcases hlimited with hlimited | ⟨e', hlimited, he'⟩
    · exact .inl (by rw [hlimited, error_bind])
    · exact .inr ⟨e', by rw [hlimited, error_bind], he'⟩
  | ok a =>
    have hlimited := hx.ok a hy
    have hrest := hf a hy
    rw [ok_bind]
    cases hcheck : Bound.checkAll (bounds a) with
    | error e =>
      have hstop : (x >>= f) = .error e := by rw [hlimited, hcheck]; rfl
      refine ⟨?_, fun e' he' => ⟨(hrest.error e' he').1,
        .inr ⟨e, hstop, Bound.concernsLimit_of_checkAll hcheck⟩⟩⟩
      intro b hb
      rw [hstop, htotal a b hy hb, Bound.checkAll_append, hcheck]
      rfl
    | ok u =>
      have hpass : (x >>= f) = f a := by rw [hlimited, hcheck]; rfl
      rw [hpass]
      refine ⟨?_, hrest.error⟩
      intro b hb
      rw [hrest.ok b hb, htotal a b hy hb, Bound.checkAll_append, hcheck, ok_bind]

/-- The bounds of a run that begins with a step without limits are those of the rest. -/
theorem bind_of_unlimited {x y : Except Error α} {f g : α → Except Error β}
    {bounds : β → List Bound} (hx : Filters (fun _ => []) x y)
    (hf : ∀ a, y = .ok a → Filters bounds (f a) (g a)) : Filters bounds (x >>= f) (y >>= g) :=
  Filters.bind (fun _ => bounds) hx hf fun _ _ _ _ => rfl

theorem check_bind (quantity : String) {value greatest : Nat} (h : value ≤ greatest) (limit : Nat)
    {x y : Except Error α} {bounds : α → List Bound} (hx : Filters bounds x y) :
    Filters (fun a => ⟨quantity, value, limit⟩ :: bounds a)
      (Limits.check quantity value limit >>= fun _ => x)
      (Limits.check quantity value greatest >>= fun _ => y) :=
  Filters.bind (fun _ => bounds) (check quantity h limit) (fun _ _ => hx) fun _ _ _ _ => rfl

section
variable {bounds : α → List Bound} {x y : Except Error α} (h : Filters bounds x y)
include h

theorem eq_ok_iff {a : α} : x = .ok a ↔ y = .ok a ∧ ∀ b ∈ bounds a, b.Holds := by
  constructor
  · intro hx
    cases hy : y with
    | error e =>
      rcases (h.error e hy).2 with hx' | ⟨e', hx', -⟩
      · exact nomatch hx.symm.trans hx'
      · exact nomatch hx.symm.trans hx'
    | ok a' =>
      have hx' := h.ok a' hy
      rcases Bound.all_hold_or_first (bounds a') with hall | ⟨before, b, after, hb, hbefore, hnot⟩
      · rw [Bound.checkAll_eq_ok hall] at hx'
        obtain rfl : a = a' := Except.ok.inj (hx.symm.trans hx')
        exact ⟨rfl, hall⟩
      · rw [hb, Bound.checkAll_eq_error hbefore hnot] at hx'
        exact nomatch hx.symm.trans hx'
  · intro hy
    rcases hy with ⟨hy, hall⟩
    rw [h.ok a hy, Bound.checkAll_eq_ok hall]
    rfl

/-- A bound that the result does not keep is reported if it is the first. -/
theorem exists_first {a : α} (hy : y = .ok a) (hbound : ∃ b ∈ bounds a, ¬b.Holds) :
    ∃ before b after, bounds a = before ++ b :: after ∧ (∀ c ∈ before, c.Holds) ∧ ¬b.Holds ∧
      x = .error b.fault := by
  rcases Bound.all_hold_or_first (bounds a) with hall | ⟨before, b, after, hb, hbefore, hnot⟩
  · obtain ⟨b, hmem, hnot⟩ := hbound
    exact absurd (hall b hmem) hnot
  · refine ⟨before, b, after, hb, hbefore, hnot, ?_⟩
    rw [h.ok a hy, hb, Bound.checkAll_eq_error hbefore hnot]
    rfl

theorem eq_error {e : Error} (hx : x = .error e) (he : ¬e.ConcernsLimit) : y = .error e := by
  cases hy : y with
  | error e' =>
    rcases (h.error e' hy).2 with hx' | ⟨e'', hx', he''⟩
    · exact hx'.symm.trans hx
    · obtain rfl : e = e'' := Except.error.inj (hx.symm.trans hx')
      exact absurd he'' he
  | ok a =>
    have hx' := h.ok a hy
    rw [hx] at hx'
    exact absurd (Bound.concernsLimit_of_checkAll (map_eq_error_iff.mp hx'.symm)) he

end

end Filters

namespace Xdr

variable {α β : Type}

/-- What a reader returns from a cursor; the cursor of a failure is forgotten. -/
def result (x : Reader α) (c : Cursor) : Except Error (α × Cursor) :=
  match x c with
  | .ok a c' => .ok (a, c')
  | .error e _ => .error e

theorem result_eq_ok_iff {x : Reader α} {c c' : Cursor} {a : α} :
    result x c = .ok (a, c') ↔ x c = .ok a c' := by
  unfold result
  cases x c with
  | ok a' c₁ => simp
  | error e c₁ => simp

theorem result_bind (x : Reader α) (f : α → Reader β) (c : Cursor) :
    result (x >>= f) c = result x c >>= fun p => result (f p.1) p.2 := by
  change (match EStateM.bind x f c with | .ok b c' => _ | .error e _ => _) = _
  unfold EStateM.bind
  conv_rhs => rw [result]
  cases x c <;> rfl

theorem result_liftExcept_bind (x : Except Error α) (f : α → Reader β) (c : Cursor) :
    result (liftExcept x >>= f) c = x >>= fun a => result (f a) c := by
  cases x <;> rfl

/-- Taking bytes off the front knows no limits. -/
theorem filters_window (item : String) (n : Nat) (read : Cursor → Bytes → Except HeaderFault α)
    (c : Cursor) :
    Filters (fun _ => []) (result (window item n read) c) (result (window item n read) c) := by
  apply Filters.of_unlimited
  intro e he
  unfold result window at he
  split at he
  · cases he
  · rename_i hfail
    cases he
    split at hfail
    · cases hfail
      exact id
    · split at hfail
      · cases hfail
      · cases hfail
        exact id

theorem filters_readText (item : String) (c : Cursor) :
    Filters (fun _ => []) (result (readText item) c) (result (readText item) c) := by
  unfold readText
  rw [result_bind]
  exact .bind_of_unlimited (filters_window item 4 _ c) fun p _ => filters_window item _ _ p.2

end Xdr

namespace Limits

def fieldBound (limits : Limits) (length : UInt32) : Bound :=
  ⟨"field length", length.toNat, limits.fieldLength.toNat⟩

/-- The bounds of the main header, in the order in which they are checked. -/
def headerBounds (limits : Limits) (header : Header) : List Bound :=
  [⟨"site count", header.siteCount.toNat, limits.siteCount.toNat⟩,
    ⟨"field count", header.fieldCount.toNat, limits.fieldCount.toNat⟩,
    ⟨"field header length", header.fieldHeaderLength.toNat, limits.fieldHeaderLength.toNat⟩]

/-- One bound for each declared field, in the order of declaration. -/
def tableBounds (limits : Limits) (table : FieldTable) : List Bound :=
  table.declared.map fun d => limits.fieldBound d.length

/-- All bounds of the headers, in the order in which they are checked. -/
def bounds (limits : Limits) (s : Series) : List Bound :=
  limits.headerBounds s.header ++ limits.tableBounds s.table

end Limits

namespace FieldEntry

variable {version : Version} {limits : Limits}

/-- Of an entry, its number of elements is held against a limit. -/
theorem filters_read (c : Xdr.Cursor) :
    Filters (fun p => [limits.fieldBound p.1.length]) (Xdr.result (read version limits) c)
      (Xdr.result (read version {}) c) := by
  unfold read
  rw [Xdr.result_bind, Xdr.result_bind]
  apply Filters.bind_of_unlimited (Xdr.filters_readText _ c)
  intro name hname
  rw [Xdr.result_bind, Xdr.result_bind]
  apply Filters.bind_of_unlimited (Xdr.filters_window _ 4 _ name.2)
  intro length hlength
  rw [Xdr.result_liftExcept_bind, Xdr.result_liftExcept_bind]
  apply Filters.bind (fun _ _ => [])
    (Filters.check "field length" (Nat.le_of_lt_succ length.1.toNat_lt) limits.fieldLength.toNat)
  · intro u _
    cases version with
    | three => exact .of_ok rfl
    | four =>
      rw [Xdr.result_bind]
      exact .bind_of_unlimited (Xdr.filters_window _ 8 _ length.2) fun p _ => .of_ok rfl
  · intro u p _ hp
    cases version with
    | three =>
      cases hp
      rfl
    | four =>
      dsimp only at hp
      rw [Xdr.result_bind] at hp
      obtain ⟨baseline, -, hp⟩ := bind_eq_ok_iff.mp hp
      cases hp
      rfl

/-- The induction is on the number of entries: the bounds of the entries that are
still to come follow the bound of the entry that was read. -/
theorem filters_readMany (count : Nat) (table : FieldTable) (c : Xdr.Cursor) :
    Filters (fun p => p.1.2.map fun e => limits.fieldBound e.length)
      (Xdr.result (readMany version limits count table) c)
      (Xdr.result (readMany version {} count table) c) := by
  induction count generalizing table c with
  | zero => exact .of_ok rfl
  | succ count ih =>
    rw [readMany, readMany, Xdr.result_bind, Xdr.result_bind]
    apply Filters.bind (fun _ p => p.1.2.tail.map fun e => limits.fieldBound e.length)
      (filters_read c)
    · intro e _
      rw [Xdr.result_liftExcept_bind, Xdr.result_liftExcept_bind]
      apply Filters.bind_of_unlimited (Filters.of_corruptHeader _)
      intro next _
      rw [Xdr.result_bind, Xdr.result_bind]
      apply Filters.bind (fun _ _ => []) (ih next e.2)
      · intro p _
        exact .of_ok rfl
      · intro p q _ hq
        cases hq
        simp
    · intro e p _ hp
      rw [Xdr.result_liftExcept_bind] at hp
      obtain ⟨next, -, hp⟩ := bind_eq_ok_iff.mp hp
      rw [Xdr.result_bind] at hp
      obtain ⟨rest, -, hp⟩ := bind_eq_ok_iff.mp hp
      cases hp
      rfl

end FieldEntry

variable {limits : Limits}

/-- Reading the entries and what is done with them afterwards, as two steps. -/
theorem FieldHeader.decode_of_le {header : Header} {bytes : Bytes}
    (h : header.fieldHeaderLength.toNat ≤ bytes.length) :
    decode header limits bytes =
      Xdr.result (FieldEntry.readMany header.version limits header.fieldCount.toNat .empty)
        (.start (bytes.take header.fieldHeaderLength.toNat)) >>= fun p =>
          if p.2.remaining = 0 then .ok ⟨p.1.1, .ofEntries header.version p.1.2⟩
          else .error (.corruptHeader
            (.fieldHeaderExcess header.fieldHeaderLength.toNat p.2.position)) := by
  rw [decode, if_neg (Nat.not_lt.mpr h), Xdr.result]
  cases FieldEntry.readMany header.version limits header.fieldCount.toNat .empty
    (.start (bytes.take header.fieldHeaderLength.toNat)) <;> rfl

theorem FieldHeader.filters_decode (header : Header) (bytes : Bytes) :
    Filters (fun f => limits.tableBounds f.table) (decode header limits bytes)
      (decode header {} bytes) := by
  rcases Nat.lt_or_ge bytes.length header.fieldHeaderLength.toNat with hshort | hlong
  · rw [decode_of_length_lt hshort, decode_of_length_lt hshort]
    exact .of_error id
  · rw [decode_of_le hlong, decode_of_le hlong]
    refine (FieldEntry.filters_readMany _ _ _).bind (fun _ _ => []) ?_ ?_
    · intro p _
      split
      · exact .of_ok rfl
      · exact .of_error id
    · intro p f hread hf
      have hdeclared := (FieldEntry.readMany_eq_ok_iff.mp (Xdr.result_eq_ok_iff.mp hread)).2.2.1
      split at hf
      · cases hf
        rw [Limits.tableBounds, hdeclared, List.append_nil, List.map_append, List.map_map]
        simp [Function.comp_def, FieldTable.empty]
      · cases hf

theorem Series.filters_checkLimits (header : Header) :
    Filters (fun _ => limits.headerBounds header) (checkLimits limits header)
      (checkLimits {} header) :=
  .check_bind _ (Nat.le_of_lt_succ header.siteCount.toNat_lt) _ <|
    .check_bind _ (Nat.le_of_lt_succ header.fieldCount.toNat_lt) _ <|
      .check _ (Nat.le_of_lt_succ header.fieldHeaderLength.toNat_lt) _

theorem Header.not_concernsLimit_of_decode {bytes : Bytes} {e : Error}
    (h : decode bytes = .error e) : ¬e.ConcernsLimit := by
  unfold decode at h
  dsimp only at h
  split_ifs at h
  · cases h
    exact id
  · cases h
    exact id
  · cases h
    exact id
  · split at h
    · cases h
      exact id
    · cases h

theorem Series.not_concernsLimit_of_recordLengthOf {table : FieldTable} {header : Header}
    {e : Error} (h : recordLengthOf table header = .error e) : ¬e.ConcernsLimit := by
  unfold recordLengthOf at h
  dsimp only at h
  split_ifs at h
  cases h
  exact id

theorem Error.ConcernsBody.not_concernsLimit {e : Error} (h : e.ConcernsBody) :
    ¬e.ConcernsLimit := by
  intro hlimit
  cases e with
  | limitExceeded quantity value limit => exact h
  | _ => exact hlimit

theorem Preamble.filters_ofBytes (bytes : Bytes) :
    Filters (fun p => limits.headerBounds p.header ++ limits.tableBounds p.fields.table)
      (ofBytes limits bytes) (ofBytes {} bytes) := by
  have hdecode : Filters (fun _ => []) (Header.decode bytes) (Header.decode bytes) :=
    .of_unlimited fun _ => Header.not_concernsLimit_of_decode
  unfold ofBytes
  apply Filters.bind_of_unlimited hdecode
  intro header _
  apply Filters.bind (fun _ p => limits.tableBounds p.fields.table)
    (Series.filters_checkLimits header)
  · intro u _
    apply Filters.bind (fun _ _ => []) (FieldHeader.filters_decode header _)
    · intro fields _
      have hlength : Filters (fun _ => []) (Series.recordLengthOf fields.table header)
          (Series.recordLengthOf fields.table header) :=
        .of_unlimited fun _ => Series.not_concernsLimit_of_recordLengthOf
      exact .bind_of_unlimited hlength fun _ _ => .of_ok rfl
    · intro fields p _ hp
      obtain ⟨recordLength, -, hp⟩ := bind_eq_ok_iff.mp hp
      cases hp
      rw [List.append_nil]
  · intro u p _ hp
    obtain ⟨fields, -, hp⟩ := bind_eq_ok_iff.mp hp
    obtain ⟨recordLength, -, hp⟩ := bind_eq_ok_iff.mp hp
    cases hp
    rfl

namespace Series

variable (path : String)

theorem filters_ofBytes (bytes : Bytes) :
    Filters limits.bounds (ofBytes limits path bytes) (ofBytes {} path bytes) := by
  rw [ofBytes_eq, ofBytes_eq]
  apply Filters.bind (fun _ _ => []) (Preamble.filters_ofBytes bytes)
  · intro p hp
    apply Filters.of_unlimited
    intro e he
    exact (Preamble.openBody_eq_error hp (Preamble.ofBytes_eq_ok hp).2.1 he).not_concernsLimit
  · intro p s _ hs
    obtain ⟨hheader, htable⟩ := Preamble.header_of_openBody hs
    rw [Limits.bounds, hheader, htable, List.append_nil]

theorem filters_load (hvalid : limits.validate = .ok ()) (content? : Option Bytes) :
    Filters limits.bounds (load limits path content?) (load {} path content?) := by
  cases content? with
  | none =>
    have hmissing : load limits path none = .error .missingFile := by
      unfold load
      rw [hvalid]
      rfl
    rw [hmissing]
    exact .of_error id
  | some bytes =>
    have hopen : load limits path (some bytes) = ofBytes limits path bytes := by
      unfold load
      rw [hvalid]
      rfl
    rw [hopen]
    exact filters_ofBytes path bytes

end Series

namespace Limits

theorem mem_keys (key : LimitKey) : key ∈ keys := by
  cases key <;> decide

theorem validate_eq_ok (h : ∀ key, limits.get key ≠ 0) : limits.validate = .ok () := by
  have hnone : limits.firstZero? = none :=
    List.find?_eq_none.mpr fun key _ => by simpa using h key
  rw [validate, hnone]

theorem exists_first_zero (h : ∃ key, limits.get key = 0) :
    ∃ before key after, keys = before ++ key :: after ∧ (∀ k ∈ before, limits.get k ≠ 0) ∧
      limits.get key = 0 ∧ limits.validate = .error (.zeroLimit key) := by
  obtain ⟨zero, hzero⟩ := h
  cases hfirst : limits.firstZero? with
  | none =>
    have hnot := List.find?_eq_none.mp hfirst zero (mem_keys zero)
    exact absurd (by simpa using hzero) hnot
  | some key =>
    obtain ⟨hkey, before, after, hkeys, hbefore⟩ := List.find?_eq_some_iff_append.mp hfirst
    refine ⟨before, key, after, hkeys, ?_, by simpa using hkey, by rw [validate, hfirst]⟩
    intro k hk
    simpa using hbefore k hk

end Limits

/-- What limits do to a file. A zero limit is refused by its name, the first one first,
whether or not there is a file. Under other limits a file opens exactly if it opens
without any and its headers keep all bounds, and the open files are the same. Where a
bound is exceeded, the first one is reported. Every other failure is the failure without
limits, which concerns no limit. -/
structure Series.OnlyFilters (limits : Limits) (path : String) (content? : Option Bytes) :
    Prop where
  zeroLimit : (∃ key, limits.get key = 0) →
    ∃ before key after, Limits.keys = before ++ key :: after ∧
      (∀ k ∈ before, limits.get k ≠ 0) ∧ limits.get key = 0 ∧
      load limits path content? = .error (.settings (.zeroLimit key))
  opens_iff : (∀ key, limits.get key ≠ 0) → ∀ s, load limits path content? = .ok s ↔
    load {} path content? = .ok s ∧ ∀ b ∈ limits.bounds s, b.value ≤ b.limit
  exceeded : (∀ key, limits.get key ≠ 0) → ∀ s, load {} path content? = .ok s →
    (∃ b ∈ limits.bounds s, b.limit < b.value) →
    ∃ before b after, limits.bounds s = before ++ b :: after ∧
      (∀ c ∈ before, c.value ≤ c.limit) ∧ b.limit < b.value ∧
      load limits path content? = .error (.limitExceeded b.quantity b.value b.limit)
  others : (∀ key, limits.get key ≠ 0) → ∀ e, load limits path content? = .error e →
    (∀ quantity value limit, e ≠ .limitExceeded quantity value limit) →
    load {} path content? = .error e
  unlimited : ∀ quantity value limit,
    load {} path content? ≠ .error (.limitExceeded quantity value limit)

/-- Limits only filter. -/
theorem Series.load_filters (limits : Limits) (path : String) (content? : Option Bytes) :
    OnlyFilters limits path content? := by
  have hfilters := fun hvalid : ∀ key, limits.get key ≠ 0 =>
    filters_load path (Limits.validate_eq_ok hvalid) content?
  refine
    { zeroLimit := ?_
      opens_iff := fun hvalid s => (hfilters hvalid).eq_ok_iff
      exceeded := ?_
      others := ?_
      unlimited := ?_ }
  · intro hzero
    obtain ⟨before, key, after, hkeys, hbefore, hkey, hinvalid⟩ := Limits.exists_first_zero hzero
    refine ⟨before, key, after, hkeys, hbefore, hkey, ?_⟩
    unfold load
    rw [hinvalid]
    rfl
  · intro hvalid s hs hbound
    obtain ⟨b, hmem, hb⟩ := hbound
    obtain ⟨before, b, after, hbounds, hbefore, hb, hload⟩ :=
      (hfilters hvalid).exists_first hs ⟨b, hmem, Nat.not_le.mpr hb⟩
    exact ⟨before, b, after, hbounds, hbefore, Nat.lt_of_not_le hb, hload⟩
  · intro hvalid e he hlimit
    apply (hfilters hvalid).eq_error he
    intro hconcerns
    cases e with
    | limitExceeded quantity value limit => exact hlimit quantity value limit rfl
    | _ => exact hconcerns
  · intro quantity value limit h
    have hfree : ({} : Limits).validate = .ok () := rfl
    exact ((filters_load path hfree content?).error _ h).1 trivial

theorem Series.load_filters_sample :
    load { fieldLength := 1 } "flow.xtr" (some (Recording.sample .four).encode) =
      .error (.limitExceeded "field length" 2 1) := by
  have hload := (Recording.wellFormed_sample .four).load_eq "flow.xtr"
  have hfilters := load_filters { fieldLength := 1 } "flow.xtr"
    (some (Recording.sample .four).encode)
  have hfield : (⟨"field length", 2, 1⟩ : Bound) ∈ Limits.bounds { fieldLength := 1 }
      ((Recording.wellFormed_sample .four).series "flow.xtr") := by decide +kernel
  obtain ⟨before, b, after, hbounds, -, hb, hrefused⟩ :=
    hfilters.exceeded (fun key => by cases key <;> decide) _ hload ⟨_, hfield, by decide⟩
  -- The main header keeps its bounds, so the one that is exceeded belongs to the field.
  have honly : ∀ c ∈ Limits.bounds { fieldLength := 1 }
      ((Recording.wellFormed_sample .four).series "flow.xtr"), c.limit < c.value →
        c = ⟨"field length", 2, 1⟩ := by decide +kernel
  obtain rfl := honly b (by rw [hbounds]; simp) hb
  exact hrefused

end LatticeSeries
