import ObjectLang.Main
import ObjectLang.Proofs.FieldPrivacy
import ObjectLang.Proofs.Composition
import ObjectLang.Proofs.FixedStructure
import ObjectLang.Proofs.BuilderTotality
import ObjectLang.Proofs.Literals
import ObjectLang.Proofs.Operators
import ObjectLang.Proofs.ModuleUses
import ObjectLang.Proofs.Imports
import ObjectLang.Proofs.BodyExports
import ObjectLang.Proofs.Termination
import ObjectLang.Proofs.ErrorTexts
import ObjectLang.Proofs.Texts
import ObjectLang.Proofs.CompoundAssignment
