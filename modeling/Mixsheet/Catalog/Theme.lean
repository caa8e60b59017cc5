/-! # Themes

The design variables of the built-in mixins. -/

namespace Mixsheet

/-- The design variables of the built-in mixins. -/
structure Theme where
  /-- The font weight of `bold()`. -/
  boldWeight : Float
  /-- The bottom margin of `spaced()`. -/
  blockSpacing : Float
  /-- The gutter of `row()` and of spaced columns, a percentage. -/
  gridMargin : String
  gridColumns : Float
  borderColor : String

/-- The theme of a run that names none. -/
def Theme.standard : Theme := ⟨600, 2, "5%", 8, "#bfbfbf"⟩

end Mixsheet
