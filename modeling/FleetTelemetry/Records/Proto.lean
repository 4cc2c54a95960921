/-!
# The protobuf messages a record may carry

What the program reads of the generated classes: `Payload` with its data, the
`vin` of every message, the `status` of `VehicleConnectivity`.  `V` is what a set
`Value` oneof holds.  Enums are open, as in proto3.
-/

namespace FleetTelemetry

/-- `key` is a number of the open enum `Field`; `value` is `none` when the oneof is unset. -/
structure Datum (V : Type) where
  key : Int
  value : Option V

structure Payload (V : Type) where
  data : List (Datum V)
  vin : String

structure VehicleAlerts where
  vin : String

structure VehicleErrors where
  vin : String

inductive ConnectivityEvent where
  | unknown
  | connected
  | disconnected
  | other (number : Int)
deriving DecidableEq

structure VehicleConnectivity where
  vin : String
  status : ConnectivityEvent
deriving DecidableEq

/-- The names of the enum `Field`; the number of a name is its place. -/
def fieldNames : List String :=
  ["Unknown", "DriveRail", "ChargeState", "BmsFullchargecomplete", "VehicleSpeed", "Odometer",
   "PackVoltage", "PackCurrent", "Soc", "DCDCEnable", "Gear", "IsolationResistance",
   "PedalPosition", "BrakePedal", "DiStateR", "DiHeatsinkTR", "DiAxleSpeedR", "DiTorquemotor",
   "DiStatorTempR", "DiVBatR", "DiMotorCurrentR", "Location", "GpsState", "GpsHeading",
   "NumBrickVoltageMax", "BrickVoltageMax", "NumBrickVoltageMin", "BrickVoltageMin",
   "NumModuleTempMax", "ModuleTempMax", "NumModuleTempMin", "ModuleTempMin", "RatedRange", "Hvil",
   "DCChargingEnergyIn", "DCChargingPower", "ACChargingEnergyIn", "ACChargingPower",
   "ChargeLimitSoc", "FastChargerPresent", "EstBatteryRange", "IdealBatteryRange", "BatteryLevel",
   "TimeToFullCharge", "ScheduledChargingStartTime", "ScheduledChargingPending",
   "ScheduledDepartureTime", "PreconditioningEnabled", "ScheduledChargingMode", "ChargeAmps",
   "ChargeEnableRequest", "ChargerPhases", "ChargePortColdWeatherMode", "ChargeCurrentRequest",
   "ChargeCurrentRequestMax", "BatteryHeaterOn", "NotEnoughPowerToHeat",
   "SuperchargerSessionTripPlanner", "DoorState", "Locked", "FdWindow", "FpWindow", "RdWindow",
   "RpWindow", "VehicleName", "SentryMode", "SpeedLimitMode", "CurrentLimitMph", "Version",
   "TpmsPressureFl", "TpmsPressureFr", "TpmsPressureRl", "TpmsPressureRr",
   "SemitruckTpmsPressureRe1L0", "SemitruckTpmsPressureRe1L1", "SemitruckTpmsPressureRe1R0",
   "SemitruckTpmsPressureRe1R1", "SemitruckTpmsPressureRe2L0", "SemitruckTpmsPressureRe2L1",
   "SemitruckTpmsPressureRe2R0", "SemitruckTpmsPressureRe2R1", "TpmsLastSeenPressureTimeFl",
   "TpmsLastSeenPressureTimeFr", "TpmsLastSeenPressureTimeRl", "TpmsLastSeenPressureTimeRr",
   "InsideTemp", "OutsideTemp", "SeatHeaterLeft", "SeatHeaterRight", "SeatHeaterRearLeft",
   "SeatHeaterRearRight", "SeatHeaterRearCenter", "AutoSeatClimateLeft", "AutoSeatClimateRight",
   "DriverSeatBelt", "PassengerSeatBelt", "DriverSeatOccupied",
   "SemitruckPassengerSeatFoldPosition", "LateralAcceleration", "LongitudinalAcceleration",
   "Deprecated_2", "CruiseSetSpeed", "LifetimeEnergyUsed", "LifetimeEnergyUsedDrive",
   "SemitruckTractorParkBrakeStatus", "SemitruckTrailerParkBrakeStatus", "BrakePedalPos",
   "RouteLastUpdated", "RouteLine", "MilesToArrival", "MinutesToArrival", "OriginLocation",
   "DestinationLocation", "CarType", "Trim", "ExteriorColor", "RoofColor", "ChargePort",
   "ChargePortLatch", "Experimental_1", "Experimental_2", "Experimental_3", "Experimental_4",
   "GuestModeEnabled", "PinToDriveEnabled", "PairedPhoneKeyAndKeyFobQty", "CruiseFollowDistance",
   "AutomaticBlindSpotCamera", "BlindSpotCollisionWarningChime", "SpeedLimitWarning",
   "ForwardCollisionWarning", "LaneDepartureAvoidance", "EmergencyLaneDepartureAvoidance",
   "AutomaticEmergencyBrakingOff", "LifetimeEnergyGainedRegen", "DiStateF", "DiStateREL",
   "DiStateRER", "DiHeatsinkTF", "DiHeatsinkTREL", "DiHeatsinkTRER", "DiAxleSpeedF",
   "DiAxleSpeedREL", "DiAxleSpeedRER", "DiSlaveTorqueCmd", "DiTorqueActualR", "DiTorqueActualF",
   "DiTorqueActualREL", "DiTorqueActualRER", "DiStatorTempF", "DiStatorTempREL", "DiStatorTempRER",
   "DiVBatF", "DiVBatREL", "DiVBatRER", "DiMotorCurrentF", "DiMotorCurrentREL",
   "DiMotorCurrentRER", "EnergyRemaining", "ServiceMode", "BMSState", "GuestModeMobileAccessState",
   "Deprecated_1", "DestinationName", "DiInverterTR", "DiInverterTF", "DiInverterTREL",
   "DiInverterTRER", "Experimental_5", "Experimental_6", "Experimental_7", "Experimental_8",
   "Experimental_9", "Experimental_10", "Experimental_11", "Experimental_12", "Experimental_13",
   "Experimental_14", "Experimental_15", "DetailedChargeState", "CabinOverheatProtectionMode",
   "CabinOverheatProtectionTemperatureLimit", "CenterDisplay", "ChargePortDoorOpen",
   "ChargerVoltage", "ChargingCableType", "ClimateKeeperMode", "DefrostForPreconditioning",
   "DefrostMode", "EfficiencyPackage", "EstimatedHoursToChargeTermination", "EuropeVehicle",
   "ExpectedEnergyPercentAtTripArrival", "FastChargerType", "HomelinkDeviceCount",
   "HomelinkNearby", "HvacACEnabled", "HvacAutoMode", "HvacFanSpeed", "HvacFanStatus",
   "HvacLeftTemperatureRequest", "HvacPower", "HvacRightTemperatureRequest",
   "HvacSteeringWheelHeatAuto", "HvacSteeringWheelHeatLevel", "OffroadLightbarPresent",
   "PowershareHoursLeft", "PowershareInstantaneousPowerKW", "PowershareStatus",
   "PowershareStopReason", "PowershareType", "RearDisplayHvacEnabled", "RearSeatHeaters",
   "RemoteStartEnabled", "RightHandDrive", "RouteTrafficMinutesDelay",
   "SoftwareUpdateDownloadPercentComplete", "SoftwareUpdateExpectedDurationMinutes",
   "SoftwareUpdateInstallationPercentComplete", "SoftwareUpdateScheduledStartTime",
   "SoftwareUpdateVersion", "TonneauOpenPercent", "TonneauPosition", "TonneauTentMode",
   "TpmsHardWarnings", "TpmsSoftWarnings", "ValetModeEnabled", "WheelType", "WiperHeatEnabled",
   "LocatedAtHome", "LocatedAtWork", "LocatedAtFavorite", "SettingDistanceUnit",
   "SettingTemperatureUnit", "Setting24HourTime", "SettingTirePressureUnit", "SettingChargeUnit",
   "ClimateSeatCoolingFrontLeft", "ClimateSeatCoolingFrontRight", "LightsHazardsActive",
   "LightsTurnSignal", "LightsHighBeams", "MediaPlaybackStatus", "MediaPlaybackSource",
   "MediaAudioVolume", "MediaNowPlayingDuration", "MediaNowPlayingElapsed",
   "MediaNowPlayingArtist", "MediaNowPlayingTitle", "MediaNowPlayingAlbum",
   "MediaNowPlayingStation", "MediaAudioVolumeIncrement", "MediaAudioVolumeMax",
   "SunroofInstalled", "SeatVentEnabled", "RearDefrostEnabled", "ChargeRateMilePerHour",
   "Deprecated_3", "MilesSinceReset", "SelfDrivingMilesSinceReset"]

/-- `Field.Name`, which raises `ValueError` (`none`) for a number outside the enum. -/
def fieldName (key : Int) : Option String :=
  if 0 ≤ key then fieldNames[key.toNat]? else none

end FleetTelemetry
