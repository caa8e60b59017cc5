/-! # Arguments

What stands between the parentheses of a mixin call: texts, lists in square brackets, and, for a keyed
call, one map from keys to arguments. -/

namespace Mixsheet

/-- An argument of a mixin call. -/
inductive Argument where
  /-- A value as written: `20`, `#fff`, `url('x.png')`. -/
  | text (s : String)
  /-- A list `[a, b, c]`. -/
  | list (items : List Argument)
  /-- The entries of a keyed call in the order of their keys; a bare key has the empty text. -/
  | map (entries : List (String × Argument))

namespace Argument

mutual

/-- An argument as text: a list in brackets, the entries of a map with colons. -/
def render : Argument → String
  | .text s => s
  | .list items => "[" ++ ", ".intercalate (renderItems items) ++ "]"
  | .map entries => ", ".intercalate (renderEntries entries)

/-- The items of a list as texts. -/
def renderItems : List Argument → List String
  | [] => []
  | item :: rest => item.render :: renderItems rest

/-- The entries of a map as texts. -/
def renderEntries : List (String × Argument) → List String
  | [] => []
  | (key, value) :: rest => (key ++ ": " ++ value.render) :: renderEntries rest

end

@[simp] theorem render_text (s : String) : (Argument.text s).render = s := by rw [render]

theorem renderItems_eq_map (items : List Argument) : renderItems items = items.map render := by
  induction items with
  | nil => simp [renderItems]
  | cons item rest ih => simp [renderItems, ih]

end Argument
end Mixsheet
