import Gpio.Board.Delivery
import Gpio.Board.Frame
import Gpio.Board.Report
import Gpio.Controller.Refusal
import Gpio.Links.Session
import Gpio.Proofs.Links.OpenWalk
import Gpio.Proofs.Board.Acyclic
import Gpio.Proofs.Board.Rolls
import Gpio.Proofs.Board.Records
import Gpio.Proofs.Board.Calls
import Gpio.Proofs.Board.Routing
import Gpio.Proofs.Board.Pins
import Gpio.Proofs.Board.Isolation
import Gpio.Proofs.Links.Midway
import Gpio.Proofs.Links.Sharing
import Gpio.Proofs.Board.Session
import Gpio.Proofs.Board.Triggers
import Gpio.Proofs.Board.Service
import Gpio.Proofs.Board.Recount
import Gpio.Proofs.Board.Turns
import Gpio.Proofs.Board.Reentry
import Gpio.Proofs.PinConfig.Flags
import Gpio.Proofs.Board.FlagWords
import Gpio.Proofs.Board.Numbering
