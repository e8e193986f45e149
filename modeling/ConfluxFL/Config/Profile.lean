import ConfluxFL.Config.Params
import ConfluxFL.Lib.KeyedTable

/-! Profiles: the values an axis defaults its parameters to, and which link of the `inherits`
chain set each. -/
namespace ConfluxFL

/-- The two axes' profiles have one shape, over the builtins of the axis and its values. -/
structure Profile (β δ : Type) where
  name : String
  /-- The builtin at which the chain ends. -/
  base : β
  defaults : δ
  /-- Custom-most first, the base's label last. -/
  chain : List String
  /-- Key by key, the link that set it. -/
  origins : KeyedTable String String

abbrev TopologyProfile := Profile Topology TopologyDefaults
abbrev ModeProfile := Profile Mode ModeDefaults

def TopologyProfile.builtin (t : Topology) : TopologyProfile :=
  ⟨t.label,t,t.defaults,[t.label],.empty⟩
def ModeProfile.builtin (m : Mode) : ModeProfile := ⟨m.label,m,m.defaults,[m.label],.empty⟩

def sourceLabel (name : String) (origins : KeyedTable String String) (key : String) : String :=
  match origins.lookup key with
  | none => name
  | some origin => if origin = name then name else name++" → "++origin

def Profile.sourceLabel {β δ : Type} (p : Profile β δ) (key : String) : String :=
  ConfluxFL.sourceLabel p.name p.origins key

/-- The link that decides a key: the recorded one, or the profile itself. -/
def linkOf (name : String) (origins : KeyedTable String String) (key : String) : String :=
  (origins.lookup key).getD name

/-- How a profile names a link of its chain. -/
def linkLabel (name link : String) : String := if link = name then name else name++" → "++link

theorem sourceLabel_eq (name : String) (origins : KeyedTable String String) (key : String) :
    sourceLabel name origins key = linkLabel name (linkOf name origins key) := by
  unfold sourceLabel linkOf linkLabel
  cases origins.lookup key <;> simp

theorem sourceLabel_of_lookup {name key link : String} {origins : KeyedTable String String}
    (h : origins.lookup key = some link) : sourceLabel name origins key = linkLabel name link := by
  rw [sourceLabel_eq, linkOf, h, Option.getD_some]

/-- Within one profile a label names one link. -/
theorem linkLabel_injective (name : String) : Function.Injective (linkLabel name) := by
  have hne : ∀ link, name++" → "++link ≠ name := by
    intro link h
    have hl := congrArg (List.length ∘ String.toList) h
    simp at hl
  intro a b h
  unfold linkLabel at h
  split_ifs at h with ha hb hb
  · rw [ha, hb]
  · exact absurd h.symm (hne b)
  · exact absurd h (hne a)
  · exact (String.append_right_inj _).mp h

end ConfluxFL
