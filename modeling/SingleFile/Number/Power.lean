/-!
# Powers

Powers of whole numbers are those of the core library, also in a module that imports a library with
powers in any monoid.
-/

namespace SingleFile

/-- The powers of the core library come first. -/
@[default_instance 20000]
instance (priority := 20000) corePow {α : Type} [NatPow α] : Pow α Nat := instPowNat

end SingleFile
