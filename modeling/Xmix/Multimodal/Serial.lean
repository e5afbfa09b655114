import Mathlib.Algebra.BigOperators.Ring.List
import Mathlib.Algebra.Order.Ring.Int
import Mathlib.Data.List.Nodup
import Xmix.Lib.Except

/-!
# Multimodal items between processes

`MsgpackEncoder` and `MsgpackDecoder` on a `MultiModalKwargsItem`. msgpack keeps native values, so
the first buffer is modelled as the value packed in it. Tensors, slices and lists are all packed as
lists, and a large tensor as the index of the buffer of its bytes.
-/

namespace Xmix.Multimodal

open List

structure Torch where
  Dtype : Type
  name : Dtype → String
  getattr : String → Option Dtype
  itemsize : Dtype → Nat
  getattr_name : ∀ d, getattr (name d) = some d
  itemsize_pos : ∀ d, 0 < itemsize d

structure Tensor (T : Torch) where
  dtype : T.Dtype
  shape : List Nat
  data : List UInt8
  nbytes : data.length = shape.prod * T.itemsize dtype

inductive NestedTensors (T : Torch) (φ : Type) where
  | tensor (t : Tensor T)
  | int (n : Int)
  | float (x : φ)
  | list (l : List (NestedTensors T φ))

inductive Slices where
  | slice (start stop step : Option Int)
  | list (l : List Slices)

inductive Field where
  | batched
  | shared (batchSize : Int)
  | flat (slices : Slices) (dim : Int)

structure MultiModalFieldElem (T : Torch) (φ : Type) where
  modality : String
  key : String
  data : Option (NestedTensors T φ)
  field : Field

inductive Value (φ : Type) where
  | nil
  | int (n : Int)
  | float (x : φ)
  | str (s : String)
  | ext (code : Nat) (data : List UInt8)
  | list (l : List (Value φ))

abbrev Obj (φ : Type) := List (String × Value φ)

inductive Buf (φ : Type) where
  | packed (obj : List (Obj φ))
  | raw (data : List UInt8)

variable {T : Torch} {φ α β : Type}

/-! ### Items -/

section Items
variable {values elems : List (MultiModalFieldElem T φ)}

def OneModality (values : List (MultiModalFieldElem T φ)) : Prop :=
  ∃ m ∈ values.map (·.modality), ∀ m' ∈ values.map (·.modality), m' = m

instance : Decidable (OneModality values) := inferInstanceAs (Decidable (∃ m ∈ _, ∀ m' ∈ _, m' = m))

/-- The values of the dictionary, each under its own key as `from_elems` puts it. -/
structure MultiModalKwargsItem (T : Torch) (φ : Type) where
  values : List (MultiModalFieldElem T φ)
  nodup : (values.map (·.key)).Nodup
  modality : OneModality values

def putElem (values : List (MultiModalFieldElem T φ)) (e : MultiModalFieldElem T φ) : List (MultiModalFieldElem T φ) :=
  if e.key ∈ values.map (·.key) then values.map fun x => if x.key = e.key then e else x else values ++ [e]

theorem nodup_putElems (h : (values.map (·.key)).Nodup) : ((elems.foldl putElem values).map (·.key)).Nodup := by
  induction elems generalizing values with
  | nil => exact h
  | cons e elems ih =>
    refine ih ?_
    rw [putElem]
    split
    next =>
      have hkeys : values.map ((·.key) ∘ fun x => if x.key = e.key then e else x) = values.map (·.key) :=
        map_congr_left fun x _ => by
        by_cases hx : x.key = e.key <;> simp [hx]
      rwa [map_map, hkeys]
    next hnew => simpa [nodup_append, h] using hnew

theorem putElems_of_nodup (h : ((values ++ elems).map (·.key)).Nodup) :
    elems.foldl putElem values = values ++ elems := by
  induction elems generalizing values with
  | nil => simp
  | cons e elems ih =>
    have hnew : e.key ∉ values.map (·.key) := fun hmem => by
      rw [map_append] at h
      exact disjoint_of_nodup_append h hmem (by simp)
    rw [foldl_cons, putElem, if_neg hnew, ih (by simpa using h), append_assoc]
    rfl

def fromElems (elems : List (MultiModalFieldElem T φ)) : Option (MultiModalKwargsItem T φ) :=
  if h : OneModality (elems.foldl putElem []) then some ⟨_, @nodup_putElems T φ [] elems nodup_nil, h⟩ else none

theorem fromElems_values (item : MultiModalKwargsItem T φ) : fromElems item.values = some item := by
  obtain ⟨values, nodup, modality⟩ := item
  have h : values.foldl putElem [] = values := putElems_of_nodup nodup
  simp only [fromElems, h, dif_pos modality]

end Items

/-! ### The encoder -/

def customTypeRawView : Nat := 3

section Encoder
variable (threshold : Int)

def encodeTensor (t : Tensor T) : StateM (List (Buf φ)) (Value φ) := do
  let pack data := .list [.str (T.name t.dtype), .list (t.shape.map fun n : Nat => .int n), data]
  if t.data.length < threshold then return pack (.ext customTypeRawView t.data)
  else
    let bufs ← get
    set (bufs ++ [.raw t.data])
    return pack (.int bufs.length)

def encodeNestedTensors : NestedTensors T φ → StateM (List (Buf φ)) (Value φ)
  | .tensor t => encodeTensor threshold t
  | .int n => return .int n
  | .float x => return .float x
  | .list l => return .list (← l.mapM encodeNestedTensors)

def encodeOptInt : Option Int → Value φ
  | none => .nil
  | some n => .int n

def encodeSlices : Slices → Value φ
  | .slice start stop step => .list ([start, stop, step].map encodeOptInt)
  | .list l => .list (l.map encodeSlices)

def encodeMmField : Field → Value φ
  | .batched => .list [.str "batched"]
  | .shared batchSize => .list [.str "shared", .int batchSize]
  | .flat slices dim => .list [.str "flat", encodeSlices slices, .int dim]

def encodeMmFieldElem (e : MultiModalFieldElem T φ) : StateM (List (Buf φ)) (Obj φ) := do
  let data ← match e.data with
    | none => pure .nil
    | some nt => encodeNestedTensors threshold nt
  return [("modality", .str e.modality), ("key", .str e.key), ("data", data), ("field", encodeMmField e.field)]

def encode (item : MultiModalKwargsItem T φ) : List (Buf φ) :=
  let (obj, bufs) := (item.values.mapM (encodeMmFieldElem threshold)).run [.packed []]
  bufs.set 0 (.packed obj)

end Encoder

/-! ### The decoder -/

namespace Value

def toNat? : Value φ → Option Nat
  | .int n => n.toNat?
  | _ => none

def toOptInt? : Value φ → Option (Option Int)
  | .nil => some none
  | .int n => some (some n)
  | _ => none

def isStr : Value φ → Bool
  | .str _ => true
  | _ => false

def isList : Value φ → Bool
  | .list _ => true
  | _ => false

end Value

def fromBuffer (dtype : T.Dtype) (shape : List Nat) (buffer : List UInt8) : Option (Tensor T) :=
  if buffer = [] then
    if h : 0 ∈ shape then some ⟨dtype, shape, [], by simp [prod_eq_zero h]⟩ else none
  else if h : buffer.length = shape.prod * T.itemsize dtype then some ⟨dtype, shape, buffer, h⟩
  else none

section Decoder
variable (bufs : List (Buf φ))

def auxBuffer (i : Int) : Option (List UInt8) := do
  match ← bufs[← (if i < 0 then bufs.length + i else i).toNat?]? with
  | .raw data => some data
  | .packed _ => none

def decodeTensor : List (Value φ) → Option (Tensor T)
  | [.str dtype, .list shape, data] => do
    let buffer ← match data with
      | .int i => auxBuffer bufs i
      | .ext code data => if code = customTypeRawView then some data else none
      | _ => none
    fromBuffer (← T.getattr dtype) (← shape.mapM Value.toNat?) buffer
  | _ => none

def decodeNestedTensors : Value φ → Option (NestedTensors T φ)
  | .int n => some (.int n)
  | .float x => some (.float x)
  | .list l =>
    if l.head?.any Value.isStr then (decodeTensor bufs l).map .tensor else (l.mapM decodeNestedTensors).map .list
  | _ => none

def decodeSlice (l : List (Value φ)) : Option Slices := do
  match ← l.mapM Value.toOptInt? with
  | [stop] => some (.slice none stop none)
  | [start, stop] => some (.slice start stop none)
  | [start, stop, step] => some (.slice start stop step)
  | _ => none

def decodeNestedSlices : Value φ → Option Slices
  | .list l => if l.head?.all Value.isList then (l.mapM decodeNestedSlices).map .list else decodeSlice l
  | _ => none

def decodeMmField : Value φ → Option Field
  | .list [.str "batched"] => some .batched
  | .list [.str "shared", .int batchSize] => some (.shared batchSize)
  | .list [.str "flat", slices] => (decodeNestedSlices slices).map (.flat · 0)
  | .list [.str "flat", slices, .int dim] => (decodeNestedSlices slices).map (.flat · dim)
  | _ => none

def decodeData : Value φ → Option (Option (NestedTensors T φ))
  | .nil => some none
  | v => (decodeNestedTensors bufs v).map some

def decodeMmFieldElem (obj : Obj φ) : Option (MultiModalFieldElem T φ) := do
  let data ← decodeData bufs (← obj.lookup "data")
  let field ← decodeMmField (← obj.lookup "field")
  match ← obj.lookup "modality", ← obj.lookup "key" with
  | .str modality, .str key => if obj.length = 4 then some ⟨modality, key, data, field⟩ else none
  | _, _ => none

def decode : Option (MultiModalKwargsItem T φ) := do
  match ← bufs[0]? with
  | .packed obj => fromElems (← obj.mapM (decodeMmFieldElem bufs))
  | .raw _ => none

end Decoder

/-! ### Round trip -/

def Keeps (bufs bufs' : List (Buf φ)) : Prop := ∀ (i : Nat) d, bufs[i]? = some (.raw d) → bufs'[i]? = some (.raw d)

theorem Keeps.of_grown {bufs bufs' bufs'' : List (Buf φ)}
    (hk : Keeps bufs' bufs'') (h : bufs <+: bufs') : Keeps bufs bufs'' :=
      fun i d hd => by
  obtain ⟨new, rfl⟩ := h
  refine hk i d ?_
  rw [getElem?_append_left (List.getElem?_eq_some_iff.1 hd).1, hd]

/-- A value is read back from any buffers that have those its encoding has left. -/
structure Restores (enc : StateM (List (Buf φ)) β) (dec : List (Buf φ) → β → Option α) (a : α) : Prop where
  grows : ∀ bufs, bufs <+: (enc.run bufs).2
  decode : ∀ bufs bufs', Keeps (enc.run bufs).2 bufs' → dec bufs' (enc.run bufs).1 = some a

theorem Restores.pure {v : β} {dec : List (Buf φ) → β → Option α} {a : α} (h : ∀ bufs, dec bufs v = some a) :
    Restores (Pure.pure v) dec a :=
  ⟨fun _ => ( prefix_rfl), fun _ bufs' _ => h bufs'⟩

theorem Restores.mapM {enc : α → StateM (List (Buf φ)) β} {dec : List (Buf φ) → β → Option α} {l : List α}
    (h : ∀ a ∈ l, Restores (enc a) dec a) : Restores (l.mapM enc) (fun bufs => List.mapM (dec bufs)) l := by
  induction l with
  | nil => exact .pure fun _ => rfl
  | cons a l ih =>
    have ha := h a (by simp)
    have hl := ih fun b hb => h b (by simp [hb])
    rw [mapM_cons]
    refine ⟨fun bufs => (ha.grows bufs).trans (hl.grows _), fun bufs bufs' hk => ?_⟩
    have h₁ := ha.decode bufs bufs' (hk.of_grown (hl.grows _))
    have h₂ := hl.decode ((enc a).run bufs).2 bufs' hk
    show List.mapM (dec bufs') (((enc a).run bufs).1 :: ((l.mapM enc).run ((enc a).run bufs).2).1) = _
    rw [mapM_cons, h₁, h₂]
    rfl

theorem mapM_map_some {f : α → β} {g : β → Option α} {l : List α} (h : ∀ a ∈ l, g (f a) = some a) :
    (l.map f).mapM g = some l := by
  rw [mapM_map, @Except.mapM_some_map _ _ l (g ∘ f) id h, map_id]

variable (threshold : Int)

theorem fromBuffer_data (t : Tensor T) : fromBuffer t.dtype t.shape t.data = some t := by
  obtain ⟨dtype, shape, data, nbytes⟩ := t
  unfold fromBuffer
  split
  next hnil =>
    obtain rfl : data = [] := hnil
    have hpos := T.itemsize_pos dtype
    have hzero : 0 ∈ shape := by simpa [hpos.ne'] using nbytes.symm
    exact dif_pos hzero
  next => simp

theorem decodeTensor_of (t : Tensor T) {bufs : List (Buf φ)} {data : Value φ}
    (hdata : data = .ext customTypeRawView t.data ∨ ∃ i : Nat, data = .int i ∧ bufs[i]? = some (.raw t.data)) :
    decodeNestedTensors bufs (.list [.str (T.name t.dtype), .list (t.shape.map fun n : Nat => .int n), data]) =
      some (.tensor t) := by
  have hshape : (t.shape.map fun n : Nat => (.int n : Value φ)).mapM Value.toNat? = some t.shape :=
    mapM_map_some fun n _ => rfl
  have hrest := fromBuffer_data t
  rw [decodeNestedTensors, head?_cons, decodeTensor.eq_def]
  rcases hdata with rfl | ⟨i, rfl, hi⟩
  · simp [Value.isStr, T.getattr_name, hshape, hrest, -mapM_map]
  · have hpos : ¬ (i : Int) < 0 := by omega
    have haux : auxBuffer bufs i = some t.data := by
      rw [auxBuffer, if_neg hpos]
      simp [Int.toNat?, hi]
    simp [Value.isStr, T.getattr_name, hshape, haux, hrest, -mapM_map]

theorem encodeTensor_restores (t : Tensor T) :
    Restores (φ := φ) (encodeTensor threshold t) decodeNestedTensors (.tensor t) := by
  unfold encodeTensor
  split
  · exact .pure fun bufs => decodeTensor_of t (.inl rfl)
  · exact ⟨fun bufs =>  prefix_append bufs _,
      fun bufs bufs' hk => decodeTensor_of t (.inr ⟨bufs.length, rfl, hk _ _ getElem?_concat_length⟩)⟩

theorem isStr_encode (nt : NestedTensors T φ) (bufs : List (Buf φ)) :
    ((encodeNestedTensors threshold nt).run bufs).1.isStr = false := by
  rw [encodeNestedTensors.eq_def]
  cases nt with
  | tensor t =>
    simp only [encodeTensor]
    split <;> rfl
  | int n => rfl
  | float x => rfl
  | list l => rfl

theorem encodeNestedTensors_restores : (nt : NestedTensors T φ) →
      Restores (encodeNestedTensors threshold nt) decodeNestedTensors nt
  | .tensor t => by
    rw [encodeNestedTensors]
    exact encodeTensor_restores threshold t
  | .int n => by
    rw [encodeNestedTensors]
    exact .pure fun bufs => by rw [decodeNestedTensors]
  | .float x => by
    rw [encodeNestedTensors]
    exact .pure fun bufs => by rw [decodeNestedTensors]
  | .list l => by
    have hl : Restores (l.mapM (encodeNestedTensors threshold)) (fun bufs => List.mapM (decodeNestedTensors bufs)) l :=
      .mapM fun a _ => encodeNestedTensors_restores a
    rw [encodeNestedTensors]
    refine ⟨hl.grows, fun bufs bufs' hk => ?_⟩
    have hhead : (((l.mapM (encodeNestedTensors threshold)).run bufs).1.head?.any Value.isStr) = false := by
      cases l with
      | nil => rfl
      | cons a l =>
        rw [mapM_cons]
        exact isStr_encode threshold a bufs
    show decodeNestedTensors bufs' (.list ((l.mapM (encodeNestedTensors threshold)).run bufs).1) = _
    rw [decodeNestedTensors, hhead, hl.decode bufs bufs' hk]
    rfl

theorem decodeNestedSlices_encode : (s : Slices) → decodeNestedSlices (encodeSlices s : Value φ) = some s
  | .slice start stop step => by
    have h : ([start, stop, step].map encodeOptInt : List (Value φ)).mapM Value.toOptInt? = some [start, stop, step] :=
      mapM_map_some fun a _ => by cases a <;> rfl
    have hhead : (encodeOptInt start : Value φ).isList = false := by cases start <;> rfl
    rw [encodeSlices, decodeNestedSlices, decodeSlice, h]
    simp [hhead]
  | .list l => by
    have h : (l.map encodeSlices : List (Value φ)).mapM decodeNestedSlices = some l :=
      mapM_map_some fun s _ => decodeNestedSlices_encode s
    have hhead : (l.map encodeSlices : List (Value φ)).head?.all Value.isList = true := by
      rcases l with - | ⟨- | -, l⟩ <;> simp [encodeSlices, Value.isList]
    rw [encodeSlices, decodeNestedSlices, hhead, h]
    rfl

theorem decodeMmField_encode (f : Field) : decodeMmField (encodeMmField f : Value φ) = some f := by
  cases f <;> simp [encodeMmField, decodeMmField, decodeNestedSlices_encode]

theorem decodeData_of_some {bufs : List (Buf φ)} {v : Value φ}
    {nt : NestedTensors T φ} (h : decodeNestedTensors bufs v = some nt) :
    decodeData bufs v = some (some nt) := by
  cases v with
  | nil => simp [decodeNestedTensors] at h
  | _ => simp [decodeData, h]

theorem decodeMmFieldElem_of {bufs : List (Buf φ)}
    {v : Value φ} (e : MultiModalFieldElem T φ) (h : decodeData bufs v = some e.data) :
    decodeMmFieldElem bufs [("modality", .str e.modality), ("key", .str e.key), ("data", v),
      ("field", encodeMmField e.field)] = some e := by
  simp [decodeMmFieldElem, lookup_cons, h, decodeMmField_encode]

theorem encodeMmFieldElem_restores (e : MultiModalFieldElem T φ) :
    Restores (encodeMmFieldElem threshold e) decodeMmFieldElem e := by
  obtain ⟨modality, key, data, field⟩ := e
  cases data with
  | none => exact .pure fun bufs => decodeMmFieldElem_of _ rfl
  | some nt =>
    have h := encodeNestedTensors_restores threshold nt
    exact ⟨h.grows, fun bufs bufs' hk => decodeMmFieldElem_of _ (decodeData_of_some (h.decode bufs bufs' hk))⟩

/-- An item is decoded from the buffers it was encoded into. -/
theorem decode_encode (item : MultiModalKwargsItem T φ) : decode (encode threshold item) = some item := by
  have h := Restores.mapM fun e (_ : e ∈ item.values) => encodeMmFieldElem_restores threshold e
  obtain ⟨rest, hrest⟩ := h.grows [.packed []]
  have hdec := h.decode [.packed []] (encode threshold item)
  have henc : encode threshold item =
    .packed ((item.values.mapM (encodeMmFieldElem threshold)).run [.packed []]).1 :: rest := by
    show ((item.values.mapM (encodeMmFieldElem threshold)).run [.packed []]).2.set 0 _ = _
    rw [← hrest]
    rfl
  rw [henc, ← hrest] at hdec
  rw [henc]
  refine (congrArg (Option.bind · fromElems) (hdec fun i d hd => ?_)).trans (fromElems_values item)
  cases i with
  | zero => cases hd
  | succ i => exact hd

/-- `true` is `int64`, `false` is `float32`. -/
def twoDtypes : Torch where
  Dtype := Bool
  name := fun wide => bif wide then "int64" else "float32"
  getattr := fun s => if s = "int64" then some true else if s = "float32" then some false else none
  itemsize := fun wide => bif wide then 8 else 4
  getattr_name := by decide
  itemsize_pos := by decide

def gridItem : MultiModalKwargsItem twoDtypes Nat where
  values :=
    [⟨"image", "pixel_values", some (.list [.tensor ⟨false, [2], [0, 0, 128, 63, 0, 0, 0, 64], rfl⟩, .float 7]),
        .flat (.list [.list [.slice (some 0) (some 2) none], .slice none none (some 1)]) 0⟩,
      ⟨"image", "image_grid", some
        (.tensor ⟨true, [2, 1], [1, 0, 0, 0, 0, 0, 0, 0, 2, 0, 0, 0, 0, 0, 0, 0], rfl⟩), .batched⟩,
      ⟨"image", "text", none, .shared 3⟩]
  nodup := by decide
  modality := by decide

/-- Of the two tensors the smaller one stays in the first buffer. -/
theorem gridItem_decode : (encode 10 gridItem).length = 2 ∧ decode (encode 10 gridItem) = some gridItem := by
  refine ⟨?_, decode_encode 10 gridItem⟩
  simp only [encode, gridItem, mapM_cons, encodeMmFieldElem, encodeNestedTensors]
  rfl

end Xmix.Multimodal
