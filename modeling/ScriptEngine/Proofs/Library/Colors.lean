/-
What the operations on colors touch.

A color has three channels, and its members are an accessor of each, a setter of each, and the two
operations that make a new color.  A setter gives one channel of its receiver another value, and
that is all that a member ever changes (`Color.Member.effect`).  Nothing is assumed about who shares
an object with whom: a color may be added to itself, and every reference to a color shows what was
set through any of them.
-/
import ScriptEngine.Library.Color
import ScriptEngine.Library.Measurement
import ScriptEngine.Proofs.Native.Objects
import ScriptEngine.Proofs.Registry.Members

namespace ScriptEngine
namespace Color

open Registry (Change undergoAll)

/-! ## Channels -/

inductive Channel where
  | red
  | green
  | blue

namespace Channel

def name : Channel → String
  | red => "red"
  | green => "green"
  | blue => "blue"

def get : Channel → Color → Float
  | red, c => c.red
  | green, c => c.green
  | blue, c => c.blue

def set : Channel → Color → Float → Color
  | red, c, x => { c with red := x }
  | green, c, x => { c with green := x }
  | blue, c, x => { c with blue := x }

/-- The second color has the value in the channel, and is the first one in the other two. -/
structure Changes (channel : Channel) (x : Float) (c c' : Color) : Prop where
  changed : channel.get c' = x
  kept : ∀ other ≠ channel, other.get c' = other.get c

theorem changes_iff {channel : Channel} {x : Float} {c c' : Color} :
    channel.Changes x c c' ↔ c' = channel.set c x := by
  obtain ⟨red, green, blue⟩ := c
  obtain ⟨red', green', blue'⟩ := c'
  constructor
  · rintro ⟨hchanged, hkept⟩
    have hred := hkept .red
    have hgreen := hkept .green
    have hblue := hkept .blue
    cases channel <;> simp_all [get, set]
  · intro h
    refine ⟨?_, fun other hother => ?_⟩
    · cases channel <;> simp_all [get, set]
    · cases channel <;> cases other <;> simp_all [get, set]

end Channel

/-! ## Members -/

/-- The methods and properties of a color. -/
inductive Member where
  | get (channel : Channel)
  | set (channel : Channel)
  | add
  | scale

namespace Member

/-- How a script calls a member. -/
def key : Member → MethodKey
  | get channel => ⟨channel.name, 0⟩
  | set channel => ⟨Members.setterName channel.name, 1⟩
  | add => ⟨"add", 1⟩
  | scale => ⟨"scale", 1⟩

theorem countable (member : Member) : member.key.argc + 1 < wordLimit := by
  have hsmall : member.key.argc ≤ 1 := by cases member <;> simp [key]
  have hroom : 2 < wordLimit := by decide
  omega

/-- What a call of a member does. -/
def effect : Member → Effect
  | get channel, args, s, v, s' => ∃ ref c, args = [.object ref] ∧ s.read Color ref = .ok c ∧
      v = .number (channel.get c) ∧ s' = s
  | set channel, args, s, v, s' => ∃ ref x c c', args = [.object ref, .number x] ∧
      s.readToWrite Color ref = .ok c ∧ v = .unset ∧ channel.Changes x c c' ∧ s.Updates ref c' s'
  | add, args, s, v, s' => ∃ ref other a b made, args = [.object ref, .object other] ∧
      s.read Color ref = .ok a ∧ s.read Color other = .ok b ∧ v = .object made ∧
      s.Creates made (a.add b) s'
  | scale, args, s, v, s' => ∃ ref x c made, args = [.object ref, .number x] ∧
      s.read Color ref = .ok c ∧ v = .object made ∧ s.Creates made (c.scale x) s'

/-- A request of the class of colors offers a member, and does what the member does. -/
def Offered (member : Member) : Prop :=
  ∃ q ∈ members, q.method? = some ("Color", member.key) ∧ q.native.Performs member.effect

theorem get_offered (channel : Channel) : Offered (get channel) := by
  refine ⟨Members.getter Color channel.name .number channel.get, ?_, rfl,
    Members.getter_performs channel.name .number channel.get⟩
  cases channel with
  | red => exact List.mem_of_getElem? (i := 4) rfl
  | green => exact List.mem_of_getElem? (i := 6) rfl
  | blue => exact List.mem_of_getElem? (i := 8) rfl

theorem set_offered (channel : Channel) : Offered (set channel) := by
  refine ⟨Members.setter Color channel.name .number channel.set, ?_, rfl,
    (Members.setter_performs channel.name .number channel.set).congr ?_⟩
  · cases channel with
    | red => exact List.mem_of_getElem? (i := 5) rfl
    | green => exact List.mem_of_getElem? (i := 7) rfl
    | blue => exact List.mem_of_getElem? (i := 9) rfl
  · intro args s v s'
    constructor
    · rintro ⟨ref, arg, x, c, rfl, harg, hread, rfl, rfl⟩
      obtain ⟨rest, hargs, -⟩ := converts_number.mp (converts_cons.mpr ⟨arg, [], rfl, harg, .nil⟩)
      cases hargs
      exact ⟨ref, x, c, channel.set c x, rfl, hread, rfl, Channel.changes_iff.mpr rfl,
        Store.write_updates (Store.borrow_eq_ok.mp hread).2.2 _⟩
    · rintro ⟨ref, x, c, c', rfl, hread, rfl, hchanges, hupdates⟩
      obtain rfl := Channel.changes_iff.mp hchanges
      exact ⟨ref, .number x, x, c, rfl, rfl, hread, rfl, hupdates.eq_write⟩

theorem add_offered : Offered add := by
  refine ⟨_, List.mem_of_getElem? (i := 2) rfl, rfl, ?_⟩
  refine (NativeFunction.performs_of_body (NativeFunction.checksFirst_typed
    [Members.self Color, Members.self Color] (Members.self Color) _)
    (fun inputs s v s' => ∃ a b made, s.read Color inputs.1 = .ok a ∧
      s.read Color inputs.2.1 = .ok b ∧ v = .object made ∧ s.Creates made (a.add b) s') ?_).congr ?_
  · rintro ⟨ref, other, ⟨⟩⟩ w
    cases ha : w.store.read Color ref with
    | error e =>
      refine .inr ⟨⟨.conversion e, ?_⟩, ?_⟩
      · simp only [Curried.on, Action.run_bind, Action.run_read_refused ha]
      · rintro v s ⟨a, b, made, ⟨⟩, -⟩
    | ok a =>
      cases hb : w.store.read Color other with
      | error e =>
        refine .inr ⟨⟨.conversion e, ?_⟩, ?_⟩
        · simp only [Curried.on, Action.run_bind, Action.run_read ha, Action.run_read_refused hb]
        · rintro v s ⟨a, b, made, -, ⟨⟩, -⟩
      | ok b =>
        refine .inl ⟨.object (w.store.fresh Color), w.store.allocate (a.add b), ?_, a, b, _, rfl,
          rfl, rfl, Store.allocate_creates w.store (a.add b)⟩
        simp only [Curried.on, Action.run_bind, Action.run_read ha, Action.run_read hb,
          Action.run_create, Action.run_pure, NativeType.write]
  · intro args s v s'
    constructor
    · rintro ⟨⟨ref, other, ⟨⟩⟩, hconverts, a, b, made, hread⟩
      obtain ⟨-, rest, rfl, hrest⟩ := converts_instance.mp hconverts
      obtain ⟨-, none, rfl, hnone⟩ := converts_instance.mp hrest
      obtain rfl := converts_nil.mp hnone
      exact ⟨ref, other, a, b, made, rfl, hread⟩
    · rintro ⟨ref, other, a, b, made, rfl, ha, hb, heffect⟩
      have hother := converts_instance.mpr ⟨(Store.borrow_eq_ok.mp hb).1, [], rfl, .nil⟩
      have hargs := converts_instance.mpr ⟨(Store.borrow_eq_ok.mp ha).1, _, rfl, hother⟩
      exact ⟨(ref, other, ()), hargs, a, b, made, ha, hb, heffect⟩

theorem scale_offered : Offered scale := by
  refine ⟨_, List.mem_of_getElem? (i := 3) rfl, rfl, ?_⟩
  refine (NativeFunction.performs_of_body (NativeFunction.checksFirst_typed
    [Members.self Color, .number] (Members.self Color) _)
    (fun inputs s v s' => ∃ c made, s.read Color inputs.1 = .ok c ∧ v = .object made ∧
      s.Creates made (c.scale inputs.2.1) s') ?_).congr ?_
  · rintro ⟨ref, x, ⟨⟩⟩ w
    cases hread : w.store.read Color ref with
    | error e =>
      refine .inr ⟨⟨.conversion e, ?_⟩, ?_⟩
      · simp only [Curried.on, Action.run_bind, Action.run_read_refused hread]
      · rintro v s ⟨c, made, ⟨⟩, -⟩
    | ok c =>
      refine .inl ⟨.object (w.store.fresh Color), w.store.allocate (c.scale x), ?_, c, _, rfl,
        rfl, Store.allocate_creates w.store (c.scale x)⟩
      simp only [Curried.on, Action.run_bind, Action.run_read hread, Action.run_create,
        Action.run_pure, NativeType.write]
  · intro args s v s'
    constructor
    · rintro ⟨⟨ref, x, ⟨⟩⟩, hconverts, c, made, hread⟩
      obtain ⟨-, rest, rfl, hrest⟩ := converts_instance.mp hconverts
      obtain ⟨none, rfl, hnone⟩ := converts_number.mp hrest
      obtain rfl := converts_nil.mp hnone
      exact ⟨ref, x, c, made, rfl, hread⟩
    · rintro ⟨ref, x, c, made, rfl, hread, heffect⟩
      have hx : Converts [.number] [.number x] (x, ()) := converts_number.mpr ⟨[], rfl, .nil⟩
      have hargs := converts_instance.mpr ⟨(Store.borrow_eq_ok.mp hread).1, _, rfl, hx⟩
      exact ⟨(ref, x, ()), hargs, c, made, hread, heffect⟩

theorem offered : (member : Member) → Offered member
  | get channel => get_offered channel
  | set channel => set_offered channel
  | add => add_offered
  | scale => scale_offered

end Member

/-- Once the class of colors was added, every call of a member has its effect and touches nothing
else, whatever the arguments and the objects are, or it fails and touches nothing. -/
theorem members_framed {before : List Change}
    (hadded : ((undergoAll before).1.addClass declaration).1 = .ok true) (after : List Change)
    (member : Member) :
    let r := (undergoAll (before ++ .addClass declaration :: after)).1.functions
    ∃ handle, r.indexOfMethod? "Color" member.key.method member.key.argc = .ok (some handle) ∧
      ("Color", handle) ∈ r.implementations member.key.method member.key.argc ∧
      r.CallPerforms handle member.effect := by
  intro r
  obtain ⟨q, hq, hmethod, hperforms⟩ := member.offered
  have hinStep := (Registry.sound_undergoAll (before ++ .addClass declaration :: after)).inStep
  obtain ⟨handle, entry, hindex, hlisted, hentry, hfunction⟩ :=
    hinStep.method_found (Registry.mem_granted hadded after hq) hmethod member.countable
  exact ⟨handle, hindex, hlisted,
    FunctionRegistry.callPerforms_of_entry hentry (hfunction ▸ hperforms)⟩

/-- Colors are added behind measurements, and once more later. -/
theorem add_framed :
    ((undergoAll [.addClass Measurement.declaration]).1.addClass declaration).1 = .ok true ∧
      let r := (undergoAll [.addClass Measurement.declaration, .addClass declaration,
        .addClass declaration]).1.functions
      ∃ handle, r.indexOfMethod? "Color" "add" 1 = .ok (some handle) ∧
        ("Color", handle) ∈ r.implementations "add" 1 ∧ r.CallPerforms handle Member.add.effect := by
  have hadded :
      ((undergoAll [.addClass Measurement.declaration]).1.addClass declaration).1 = .ok true := by
    rfl
  exact ⟨hadded, members_framed hadded [.addClass declaration] .add⟩

end Color
end ScriptEngine
